import Zl.Vm.Native.Boundary

namespace zl.vm.native

variable {Owner : Type}

/-- The exports that are registered, by name. -/
structure NativeExportRegistry (Owner : Type) where
  exports : String → Option (ZlNativeExport Owner) := fun _ => none

namespace NativeExportRegistry

def emplace (r : NativeExportRegistry Owner) (name : String) (e : ZlNativeExport Owner) :
    NativeExportRegistry Owner :=
  { exports := Function.update r.exports name (some e) }

/-- The name under which an entry is inserted next. -/
def checkExport (r : NativeExportRegistry Owner) (e : ZlNativeExport Owner) : Except String String :=
  match e.name, e.invoke with
  | some name, some _ =>
    if name = "" then .error "native module contains an invalid export"
    else if (r.exports name).isSome then .error ("duplicate native export: " ++ name)
    else .ok name
  | _, _ => .error "native module contains an invalid export"

/-- The loop over the table. An entry is inserted before the next one is looked at. -/
def registerExports (r : NativeExportRegistry Owner) :
    List (ZlNativeExport Owner) → NativeExportRegistry Owner × Except String Unit
  | [] => (r, .ok ())
  | e :: rest =>
    match r.checkExport e with
    | .error message => (r, .error message)
    | .ok name => (r.emplace name e).registerExports rest

def registerModule (r : NativeExportRegistry Owner) (exports : Option (List (ZlNativeExport Owner)))
    (count : Nat) : NativeExportRegistry Owner × Except String Unit :=
  if count = 0 then (r, .ok ())
  else
    match exports with
    | none => (r, .error "native module has a null export table")
    | some table => r.registerExports (table.take count)

/-- A refused table leaves the registry as it was, an accepted one adds its own names. -/
def AllOrNothing (r : NativeExportRegistry Owner) (table : List (ZlNativeExport Owner))
    (outcome : NativeExportRegistry Owner × Except String Unit) : Prop :=
  match outcome.2 with
  | .error _ => outcome.1.exports = r.exports
  | .ok () => ∀ name e, outcome.1.exports name = some e ↔
      r.exports name = some e ∨ e ∈ table ∧ e.name = some name

/-- An entry that can be called under a name. -/
structure Valid (e : ZlNativeExport Owner) : Prop where
  named : ∃ name, e.name = some name ∧ name ≠ ""
  callable : e.invoke.isSome = true

/-- A table that can be registered as a whole. -/
structure Acceptable (r : NativeExportRegistry Owner) (table : List (ZlNativeExport Owner)) : Prop where
  valid : ∀ e ∈ table, Valid e
  distinct : (table.map (·.name)).Nodup
  unregistered : ∀ e ∈ table, ∀ name, e.name = some name → r.exports name = none

section
variable {r : NativeExportRegistry Owner} {e : ZlNativeExport Owner} {table : List (ZlNativeExport Owner)}
  {name : String}

theorem emplace_exports_self : (r.emplace name e).exports name = some e := Function.update_self _ _ _

theorem emplace_exports_of_ne {other : String} (hne : other ≠ name) :
    (r.emplace name e).exports other = r.exports other :=
  Function.update_of_ne hne _ _

theorem checkExport_eq_ok : r.checkExport e = .ok name ↔
    e.name = some name ∧ name ≠ "" ∧ e.invoke.isSome = true ∧ r.exports name = none := by
  unfold checkExport
  cases hname : e.name with
  | none => simp
  | some actual =>
    cases hinvoke : e.invoke with
    | none => simp
    | some invoke =>
      dsimp only
      by_cases hempty : actual = ""
      · rw [if_pos hempty]
        refine iff_of_false nofun ?_
        rintro ⟨hsame, hne, -⟩
        exact hne (Option.some.inj hsame ▸ hempty)
      · rw [if_neg hempty]
        cases hfound : r.exports actual with
        | none =>
          simp only [Option.isSome_none, Bool.false_eq_true, if_false, Except.ok.injEq, Option.some.injEq,
            Option.isSome_some, true_and]
          constructor
          · rintro rfl
            exact ⟨rfl, hempty, hfound⟩
          · exact fun h => h.1
        | some old =>
          simp only [Option.isSome_some, if_true, reduceCtorEq, false_iff, Option.some.injEq, true_and]
          rintro ⟨rfl, -, hnone⟩
          rw [hnone] at hfound
          nomatch hfound

theorem registerExports_keeps {old : ZlNativeExport Owner} (hold : r.exports name = some old) :
    (r.registerExports table).1.exports name = some old := by
  induction table generalizing r with
  | nil => exact hold
  | cons e rest ih =>
    rw [registerExports]
    split
    · exact hold
    · next actual hcheck =>
      refine ih ?_
      have hne : name ≠ actual := by
        rintro rfl
        rw [(checkExport_eq_ok.mp hcheck).2.2.2] at hold
        nomatch hold
      rw [emplace_exports_of_ne hne, hold]

/-- A table that is accepted adds exactly its names. -/
theorem registerExports_adds (hok : (r.registerExports table).2 = .ok ()) (name : String)
    (e : ZlNativeExport Owner) : (r.registerExports table).1.exports name = some e ↔
      r.exports name = some e ∨ e ∈ table ∧ e.name = some name := by
  induction table generalizing r with
  | nil => simp [registerExports]
  | cons first rest ih =>
    rw [registerExports] at hok ⊢
    cases hcheck : r.checkExport first with
    | error message =>
      rw [hcheck] at hok
      nomatch hok
    | ok actual =>
      rw [hcheck] at hok
      obtain ⟨hname, -, -, hnone⟩ := checkExport_eq_ok.mp hcheck
      dsimp only at hok ⊢
      rw [ih hok]
      by_cases hsame : name = actual
      · subst hsame
        rw [emplace_exports_self, hnone, List.mem_cons]
        constructor
        · rintro (hfirst | ⟨hmem, hsome⟩)
          · obtain rfl := Option.some.inj hfirst
            exact .inr ⟨.inl rfl, hname⟩
          · exact .inr ⟨.inr hmem, hsome⟩
        · rintro (hnone' | ⟨rfl | hmem, hsome⟩)
          · nomatch hnone'
          · exact .inl rfl
          · exact .inr ⟨hmem, hsome⟩
      · rw [emplace_exports_of_ne hsame, List.mem_cons]
        refine or_congr_right ⟨fun h => ⟨.inr h.1, h.2⟩, ?_⟩
        rintro ⟨rfl | hmem, hsome⟩
        · exact absurd (Option.some.inj (hsome.symm.trans hname)) hsame
        · exact ⟨hmem, hsome⟩

theorem registerExports_ok_iff : (r.registerExports table).2 = .ok () ↔ r.Acceptable table := by
  induction table generalizing r with
  | nil => exact iff_of_true rfl ⟨List.forall_mem_nil _, List.nodup_nil, List.forall_mem_nil _⟩
  | cons e rest ih =>
    rw [registerExports]
    cases hcheck : r.checkExport e with
    | error message =>
      refine iff_of_false nofun fun h => ?_
      obtain ⟨name, hname, hne⟩ := (h.valid e List.mem_cons_self).named
      have hok : r.checkExport e = .ok name := checkExport_eq_ok.mpr
        ⟨hname, hne, (h.valid e List.mem_cons_self).callable, h.unregistered e List.mem_cons_self name hname⟩
      rw [hcheck] at hok
      nomatch hok
    | ok name =>
      obtain ⟨hname, hne, hcallable, hnone⟩ := checkExport_eq_ok.mp hcheck
      dsimp only
      rw [ih]
      constructor
      · intro h
        refine ⟨List.forall_mem_cons.mpr ⟨⟨⟨name, hname, hne⟩, hcallable⟩, h.valid⟩, ?_, ?_⟩
        · refine List.nodup_cons.mpr ⟨fun hmem => ?_, h.distinct⟩
          obtain ⟨other, hother, hsame⟩ := List.mem_map.mp hmem
          have habsent := h.unregistered other hother name (hsame.trans hname)
          rw [emplace_exports_self] at habsent
          nomatch habsent
        · refine List.forall_mem_cons.mpr ⟨fun actual hactual => ?_, fun other hother actual hactual => ?_⟩
          · rwa [← Option.some.inj (hname.symm.trans hactual)]
          · have habsent := h.unregistered other hother actual hactual
            by_cases hsame : actual = name
            · rw [hsame, emplace_exports_self] at habsent
              nomatch habsent
            · rwa [emplace_exports_of_ne hsame] at habsent
      · intro h
        obtain ⟨hnotin, hdistinct⟩ := List.nodup_cons.mp h.distinct
        refine ⟨fun other hother => h.valid other (List.mem_cons_of_mem _ hother), hdistinct, ?_⟩
        intro other hother actual hactual
        have hsame : actual ≠ name := by
          rintro rfl
          exact hnotin (List.mem_map.mpr ⟨other, hother, hactual.trans hname.symm⟩)
        rw [emplace_exports_of_ne hsame]
        exact h.unregistered other (List.mem_cons_of_mem _ hother) actual hactual

theorem registerExports_allOrNothing_iff : r.AllOrNothing table (r.registerExports table) ↔
    r.Acceptable table ∨ ∃ e rest, table = e :: rest ∧ ¬ r.Acceptable [e] := by
  have hone (e : ZlNativeExport Owner) : r.Acceptable [e] ↔ ∃ name, r.checkExport e = .ok name := by
    rw [← registerExports_ok_iff, registerExports]
    cases r.checkExport e with
    | error message => exact iff_of_false nofun fun ⟨_, h⟩ => nomatch h
    | ok name => exact iff_of_true rfl ⟨name, rfl⟩
  unfold AllOrNothing
  split
  · next message herror =>
    have hnot : ¬ r.Acceptable table := fun h => by
      rw [registerExports_ok_iff.mpr h] at herror
      nomatch herror
    rw [or_iff_right hnot]
    cases table with
    | nil => nomatch herror
    | cons e rest =>
      have hfirst : (∃ e' rest', e :: rest = e' :: rest' ∧ ¬ r.Acceptable [e']) ↔ ¬ r.Acceptable [e] := by
        refine ⟨?_, fun h => ⟨e, rest, rfl, h⟩⟩
        rintro ⟨e', rest', hsame, h⟩
        rwa [(List.cons.inj hsame).1]
      rw [hfirst, hone, registerExports]
      cases hcheck : r.checkExport e with
      | error => exact iff_of_true rfl fun ⟨_, h⟩ => nomatch h
      | ok name =>
        refine iff_of_false (fun hsame => ?_) (not_not_intro ⟨name, rfl⟩)
        have hkept : ((r.emplace name e).registerExports rest).1.exports name = some e :=
          registerExports_keeps emplace_exports_self
        dsimp only at hsame
        rw [hsame, (checkExport_eq_ok.mp hcheck).2.2.2] at hkept
        nomatch hkept
  · next hok => exact iff_of_true (registerExports_adds hok) (.inl (registerExports_ok_iff.mp hok))

end

/-- Registration is all or nothing exactly for a null table, a table that can be registered as a
    whole, and a table whose first entry is refused. -/
theorem registerModule_allOrNothing_iff (r : NativeExportRegistry Owner)
    (exports : Option (List (ZlNativeExport Owner))) (count : Nat) :
    r.AllOrNothing ((exports.getD []).take count) (r.registerModule exports count) ↔
      exports = none ∨ r.Acceptable ((exports.getD []).take count) ∨
        ∃ e rest, (exports.getD []).take count = e :: rest ∧ ¬ r.Acceptable [e] := by
  unfold registerModule
  split
  · next hcount =>
    subst hcount
    refine iff_of_true ?_ (.inr (.inl ⟨List.forall_mem_nil _, List.nodup_nil, List.forall_mem_nil _⟩))
    simp [AllOrNothing]
  · cases exports with
    | none => exact iff_of_true rfl (.inl rfl)
    | some table =>
      rw [or_iff_right nofun]
      exact registerExports_allOrNothing_iff

/-- A valid entry, and an entry without a name behind it. -/
def halfValid : List (ZlNativeExport Unit) :=
  [{ name := some "add", invoke := some fun _ => {} }, { invoke := some fun _ => {} }]

/-- The table is refused, and `add` is registered all the same. -/
theorem halfValid_registers_add :
    (({} : NativeExportRegistry Unit).registerModule (some halfValid) 2).2 =
        .error "native module contains an invalid export" ∧
      ((({} : NativeExportRegistry Unit).registerModule (some halfValid) 2).1.exports "add").isSome = true ∧
      ¬ ({} : NativeExportRegistry Unit).AllOrNothing halfValid
        (({} : NativeExportRegistry Unit).registerModule (some halfValid) 2) := by
  refine ⟨by decide +kernel, by decide +kernel, fun h => ?_⟩
  have hfound :
      ((({} : NativeExportRegistry Unit).registerModule (some halfValid) 2).1.exports "add").isSome =
      true := by decide +kernel
  have hsame : (({} : NativeExportRegistry Unit).registerModule (some halfValid) 2).1.exports =
      ({} : NativeExportRegistry Unit).exports := h
  rw [hsame] at hfound
  nomatch hfound

end NativeExportRegistry

end zl.vm.native
