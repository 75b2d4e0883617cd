import Zl.Collections.Basic
import Zl.Vm.Native.Boundary

open zl.collections (bind_eq_ok)

namespace zl.vm.native

section
variable {V Owner : Type}
variable {e : ZlNativeExport Owner} {args : List (Value V)} {r : NativeResourceRegistry Owner}

/-- The handles a call passes, in the order of its arguments. -/
def argumentHandles (args : List (Value V)) : List Nat :=
  args.filterMap fun
    | .handle id => some id
    | _ => none

/-- The handles a call passes as `OWNED` or `CONSUMED`, in the order of the parameters. -/
def transferredHandles (e : ZlNativeExport Owner) (args : List (Value V)) : List Nat :=
  (List.range e.arity).filterMap (transferredHandle e args)

/-- When an error is raised every argument handle that was registered has its owner still;
    when the call returns, the handles passed as `OWNED` or `CONSUMED` are consumed once
    each, and no other handle has changed. -/
def Transactional (e : ZlNativeExport Owner) (args : List (Value V))
    (before : NativeResourceRegistry Owner)
    (outcome : Except Error (Value V) × NativeResourceRegistry Owner) : Prop :=
  match outcome.1 with
  | .error _ => ∀ id ∈ argumentHandles args, ∀ owner, before.owners id = some owner →
      outcome.2.owners id = some owner
  | .ok _ =>
    (∀ id ∈ transferredHandles e args,
      outcome.2.owners id = none ∧ outcome.2.consumed.count id = before.consumed.count id + 1) ∧
    ∀ id, id ∉ transferredHandles e args →
      outcome.2.consumed.count id = before.consumed.count id ∧
        ∀ owner, before.owners id = some owner → outcome.2.owners id = some owner

/-- The result is one the boundary returns, when these handles are registered. -/
def Returnable (e : ZlNativeExport Owner) (registered : Nat → Bool) (result : ZlNativeValue) : Bool :=
  result.tag == e.returnType &&
    match e.returnType with
    | .I64 | .F64 | .BOOL => true
    | .HANDLE => result.data.word != 0 &&
        (e.returnOwnership != .OWNED || registered result.data.word.toNat)
    | .CALLBACK => result.data.word != 0
    | .BUFFER_VIEW | .STRUCT_VIEW | .other _ => false

/-- The call comes to the transfers and gives something away: then the handles given away
    must be different ones, and the result one the boundary returns once they are gone. -/
def KeepsTransaction (e : ZlNativeExport Owner) (site : CallSite) (args : List (Value V))
    (before : NativeResourceRegistry Owner) : Prop :=
  ∀ packed invoke, packArguments e site before args = .ok packed → e.invoke = some invoke →
    (invoke packed).status = 0 → transferredHandles e args ≠ [] →
      (transferredHandles e args).Nodup ∧
        Returnable e
          (fun id => ((invoke packed).adopted.foldl (·.insert ·) before).contains id &&
            id ∉ transferredHandles e args)
          (invoke packed).result = true

namespace NativeResourceRegistry
variable {r r' : NativeResourceRegistry Owner}

theorem owners_insert (owner : Owner) {id : Nat} {held : Owner} (h : r.owners id = some held) :
    (r.insert owner).owners id = some held := by
  unfold insert
  dsimp only
  generalize (if r.nextId = 0 then 1 else r.nextId) = fresh
  split
  · exact h
  · next hfresh =>
    have hne : id ≠ fresh := by
      rintro rfl
      exact hfresh (by rw [h]; rfl)
    exact (Function.update_of_ne hne ..).trans h

theorem owners_adopt (adopted : List Owner) {id : Nat} {held : Owner} (h : r.owners id = some held) :
    (adopted.foldl (·.insert ·) r).owners id = some held := by
  induction adopted generalizing r with
  | nil => exact h
  | cons owner rest ih => exact ih (owners_insert owner h)

theorem consumed_adopt (adopted : List Owner) : (adopted.foldl (·.insert ·) r).consumed = r.consumed := by
  induction adopted generalizing r with
  | nil => rfl
  | cons owner rest ih => exact ih

theorem consume_registered {id : Nat} (h : (r.owners id).isSome = true) :
    r.consume id = .ok
      { r with owners := Function.update r.owners id none, consumed := id :: r.consumed } := by
  obtain ⟨owner, howner⟩ := Option.isSome_iff_exists.mp h
  unfold consume
  rw [howner]

theorem consume_none {id : Nat} (h : r.owners id = none) :
    r.consume id = .error "invalid native handle" := by
  unfold consume
  rw [h]

theorem owners_consume {id id' : Nat} (hconsume : r.consume id = .ok r') :
    r'.owners id' = if id' = id then none else r.owners id' := by
  unfold consume at hconsume
  split at hconsume <;> cases hconsume
  change Function.update r.owners id none id' = _
  by_cases heq : id' = id
  · rw [heq, Function.update_self, if_pos rfl]
  · rw [Function.update_of_ne heq, if_neg heq]

/-- A list of handles consumed one after the other. -/
def consumeAll : List Nat → NativeResourceRegistry Owner →
    Except Error Unit × NativeResourceRegistry Owner
  | [], r => (.ok (), r)
  | id :: rest, r =>
    match r.consume id with
    | .error message => (.error (.runtimeError message), r)
    | .ok r' => consumeAll rest r'

/-- The registry when these handles have been consumed. -/
def without (r : NativeResourceRegistry Owner) (ids : List Nat) : NativeResourceRegistry Owner :=
  { r with owners := fun id => if id ∈ ids then none else r.owners id, consumed := ids.reverse ++ r.consumed }

theorem contains_without (r : NativeResourceRegistry Owner) (ids : List Nat) :
    (r.without ids).contains = fun id => r.contains id && id ∉ ids := by
  funext id
  unfold contains without
  by_cases hid : id ∈ ids <;> simp [hid]

/-- Different registered handles are all consumed, and nothing else is touched. -/
theorem consumeAll_ok {ids : List Nat} (hregistered : ∀ id ∈ ids, (r.owners id).isSome = true)
    (hnodup : ids.Nodup) :
    consumeAll ids r = (.ok (), r.without ids) := by
  induction ids generalizing r with
  | nil => simp [consumeAll, without]
  | cons id rest ih =>
    obtain ⟨hnot, hrest⟩ := List.nodup_cons.mp hnodup
    rw [consumeAll, consume_registered (hregistered id List.mem_cons_self)]
    dsimp only
    rw [ih (fun id' hid' => ?_) hrest]
    · unfold without
      simp only [List.reverse_cons, List.append_assoc, List.singleton_append, List.mem_cons]
      congr 2
      funext id'
      by_cases hid' : id' = id
      · simp [hid']
      · simp [hid']
    · have hne : id' ≠ id := fun heq => hnot (heq ▸ hid')
      change (Function.update r.owners id none id').isSome = true
      rw [Function.update_of_ne hne]
      exact hregistered id' (List.mem_cons_of_mem _ hid')

theorem owners_consumeAll_none {ids : List Nat} {id : Nat} (h : r.owners id = none) :
    (consumeAll ids r).2.owners id = none := by
  induction ids generalizing r with
  | nil => exact h
  | cons id' rest ih =>
    rw [consumeAll]
    cases hconsume : r.consume id' with
    | error message => exact h
    | ok r' =>
      refine ih ?_
      rw [owners_consume hconsume]
      split
      · rfl
      · exact h

/-- A handle that is not registered makes the loop fail. -/
theorem consumeAll_error_of_none {ids : List Nat} {id : Nat} (hid : id ∈ ids) (hnone : r.owners id = none) :
    ∃ error, (consumeAll ids r).1 = .error error := by
  induction ids generalizing r with
  | nil => cases hid
  | cons id' rest ih =>
    rw [consumeAll]
    cases hconsume : r.consume id' with
    | error message => exact ⟨_, rfl⟩
    | ok r' =>
      cases List.mem_cons.mp hid with
      | inl heq =>
        rw [← heq, consume_none hnone] at hconsume
        cases hconsume
      | inr hrest =>
        refine ih hrest ?_
        rw [owners_consume hconsume]
        split
        · rfl
        · exact hnone

/-- A handle that occurs twice makes the loop fail. -/
theorem consumeAll_error {ids : List Nat} (hdup : ¬ ids.Nodup) : ∃ error,
    (consumeAll ids r).1 = .error error := by
  induction ids generalizing r with
  | nil => exact absurd List.nodup_nil hdup
  | cons id rest ih =>
    rw [consumeAll]
    cases hconsume : r.consume id with
    | error message => exact ⟨_, rfl⟩
    | ok r' =>
      by_cases hid : id ∈ rest
      · refine consumeAll_error_of_none hid ?_
        rw [owners_consume hconsume, if_pos rfl]
      · exact ih fun hnodup => hdup (List.nodup_cons.mpr ⟨hid, hnodup⟩)

end NativeResourceRegistry

open NativeResourceRegistry

/-- The loop over the parameters consumes the handles given away. -/
theorem consumeArguments_eq (e : ZlNativeExport Owner) (args : List (Value V)) (indices : List Nat)
    (r : NativeResourceRegistry Owner) :
    consumeArguments e args indices r = consumeAll (indices.filterMap (transferredHandle e args)) r := by
  induction indices generalizing r with
  | nil => rfl
  | cons i rest ih =>
    rw [consumeArguments, List.filterMap_cons]
    cases htransferred : transferredHandle e args i with
    | none => exact ih r
    | some id =>
      dsimp only [consumeAll]
      cases r.consume id with
      | error message => rfl
      | ok r' => exact ih r'

theorem mapM_ok {X A B : Type} {f : A → Except X B} {l : List A} {bs : List B} (h : l.mapM f = .ok bs) :
    ∀ a ∈ l, ∃ b, f a = .ok b := by
  induction l generalizing bs with
  | nil => exact nofun
  | cons a rest ih =>
    rw [List.mapM_cons, bind_eq_ok] at h
    obtain ⟨b, hb, h⟩ := h
    rw [bind_eq_ok] at h
    obtain ⟨bs', hbs', -⟩ := h
    intro a' ha'
    cases List.mem_cons.mp ha' with
    | inl heq => exact ⟨b, heq ▸ hb⟩
    | inr hrest => exact ih hbs' a' hrest

theorem registered_of_packArguments {site : CallSite} {packed : List ZlNativeValue}
    (hpacked : packArguments e site r args = .ok packed) :
    ∀ id ∈ transferredHandles e args, r.contains id = true := by
  unfold packArguments at hpacked
  rw [bind_eq_ok] at hpacked
  obtain ⟨-, -, hpacked⟩ := hpacked
  rw [bind_eq_ok] at hpacked
  obtain ⟨-, -, hpacked⟩ := hpacked
  rw [bind_eq_ok] at hpacked
  obtain ⟨values, hvalues, -⟩ := hpacked
  intro id hid
  obtain ⟨i, -, hi⟩ := List.mem_filterMap.mp hid
  unfold transferredHandle at hi
  split at hi
  · next types id' htypes harg =>
    obtain ⟨htransfers, heq⟩ := Option.ite_none_right_eq_some.mp hi
    cases heq
    obtain ⟨value, hvalue⟩ := mapM_ok hvalues (.handle id, i) (List.mem_zipIdx_iff_getElem?.mpr harg)
    unfold packArgument at hvalue
    rw [htypes] at hvalue
    dsimp only at hvalue
    split at hvalue
    · cases hvalue
    · split at hvalue
      · cases hvalue
      · next hregistered =>
        by_contra hnot
        exact hregistered ⟨htransfers, eq_false_of_ne_true hnot⟩
  · cases hi

theorem mem_argumentHandles {id : Nat} (hid : id ∈ transferredHandles e args) :
    id ∈ argumentHandles args := by
  obtain ⟨i, -, hi⟩ := List.mem_filterMap.mp hid
  unfold transferredHandle at hi
  split at hi
  · next types id' htypes harg =>
    obtain ⟨-, heq⟩ := Option.ite_none_right_eq_some.mp hi
    cases heq
    exact List.mem_filterMap.mpr ⟨_, List.mem_of_getElem? harg, rfl⟩
  · cases hi

theorem unpack_ok_iff (result : ZlNativeValue) (expected : ZlNativeTypeTag) :
    (∃ value : Value V, unpack result expected = .ok value) ↔
      (result.tag == expected &&
        match expected with
        | .I64 | .F64 | .BOOL => true
        | .HANDLE | .CALLBACK => result.data.word != 0
        | .BUFFER_VIEW | .STRUCT_VIEW | .other _ => false) = true := by
  unfold unpack
  by_cases htag : result.tag = expected
  · rw [if_neg (not_not.mpr htag), beq_iff_eq.mpr htag, Bool.true_and]
    cases expected with
    | HANDLE =>
      dsimp only [unpackNativeHandle]
      by_cases hword : result.data.word = 0#64 <;> simp [htag, hword]
    | CALLBACK =>
      dsimp only [unpackNativeCallback]
      by_cases hword : result.data.word = 0#64 <;> simp [htag, hword]
    | _ => simp
  · rw [if_pos htag, beq_false_of_ne htag, Bool.false_and]
    simp

private theorem caught_ok_iff (site : CallSite) (unpacked : Except String (Value V)) :
    (∃ value : Value V, (match unpacked with
      | .ok value => .ok value
      | .error message => throwBoundaryError site message : Except Error (Value V)) = .ok value) ↔
      ∃ value, unpacked = .ok value := by
  cases unpacked <;> simp [throwBoundaryError]

/-- The result is returned exactly if it is one the boundary returns. -/
theorem unpackResult_ok_iff (e : ZlNativeExport Owner) (site : CallSite) (r : NativeResourceRegistry Owner)
    (result : ZlNativeValue) :
    (∃ value : Value V, unpackResult e site r result = .ok value) ↔
      Returnable e r.contains result = true := by
  unfold unpackResult Returnable
  by_cases hreject : (e.returnType = .HANDLE ∧ e.returnOwnership = .OWNED) ∧
      (result.tag ≠ .HANDLE ∨ result.data.word = 0 ∨ r.contains result.data.word.toNat = false)
  · rw [if_pos hreject]
    obtain ⟨⟨htype, hownership⟩, hreject⟩ := hreject
    rw [htype, hownership]
    rcases hreject with h | h | h <;> simp [throwBoundaryError, h]
  · rw [if_neg hreject]
    refine (caught_ok_iff site _).trans ((unpack_ok_iff result e.returnType).trans ?_)
    cases htype : e.returnType with
    | HANDLE =>
      by_cases hownership : e.returnOwnership = .OWNED
      · simp only [not_and, not_or, ne_eq, not_not, Bool.not_eq_false] at hreject
        obtain ⟨-, -, hcontains⟩ := hreject ⟨htype, hownership⟩
        simp [hcontains]
      · simp [hownership]
    | _ => rfl

/-- A handle that was given away and is gone when an error is raised. -/
theorem not_transactional {outcome : Except Error (Value V) × NativeResourceRegistry Owner}
    {id : Nat} {owner : Owner} (hid : id ∈ transferredHandles e args)
    (howner : r.owners id = some owner) (herror : ∃ error, outcome.1 = .error error)
    (hgone : outcome.2.owners id = none) :
    ¬ Transactional e args r outcome := by
  obtain ⟨error, herror⟩ := herror
  intro h
  unfold Transactional at h
  rw [herror] at h
  have hkept := h id (mem_argumentHandles hid) owner howner
  rw [hgone] at hkept
  cases hkept

/-- A call that gives nothing away leaves every registered handle, whatever it comes to. -/
theorem transactional_of_kept {before : NativeResourceRegistry Owner}
    {outcome : Except Error (Value V) × NativeResourceRegistry Owner}
    (hnone : transferredHandles e args = [])
    (howners : ∀ id owner, before.owners id = some owner → outcome.2.owners id = some owner)
    (hconsumed : outcome.2.consumed = before.consumed) : Transactional e args before outcome := by
  unfold Transactional
  cases outcome.1 with
  | error error => exact fun id _ => howners id
  | ok value =>
    refine ⟨fun id hid => ?_, fun id _ => ⟨by rw [hconsumed], howners id⟩⟩
    rw [hnone] at hid
    cases hid

theorem finishCall_succeeded (e : ZlNativeExport Owner) (site : CallSite) (args : List (Value V))
    (reply : NativeReply Owner) (hstatus : reply.status = 0) (r : NativeResourceRegistry Owner) :
    finishCall e site args reply r =
      match consumeAll (transferredHandles e args) r with
      | (.error error, r') => (.error error, r')
      | (.ok _, r') => (unpackResult e site r' reply.result, r') := by
  unfold finishCall
  rw [if_neg (not_not.mpr hstatus), consumeArguments_eq]
  rfl

/-- What the transfers and the result come to after a successful native call, from the
    registry as that call left it. -/
theorem transactional_finishCall {site : CallSite} (reply : NativeReply Owner) (hstatus : reply.status = 0)
    (hregistered : ∀ id ∈ transferredHandles e args, r.contains id = true) :
    Transactional e args r (finishCall e site args reply (reply.adopted.foldl (·.insert ·) r)) ↔
      (transferredHandles e args ≠ [] →
        (transferredHandles e args).Nodup ∧
          Returnable e (fun id => (reply.adopted.foldl (·.insert ·) r).contains id &&
            id ∉ transferredHandles e args)
            reply.result = true) := by
  have howners (id : Nat) (hid : id ∈ transferredHandles e args) : ∃ owner, r.owners id = some owner :=
    Option.isSome_iff_exists.mp (Bool.and_eq_true_iff.mp (hregistered id hid)).2
  have hadopted (id : Nat) (owner : Owner) (howner : r.owners id = some owner) :
      (reply.adopted.foldl (·.insert ·) r).owners id = some owner := owners_adopt _ howner
  have hconsumed : (reply.adopted.foldl (·.insert ·) r).consumed = r.consumed := consumed_adopt _
  rw [finishCall_succeeded e site args reply hstatus]
  generalize reply.adopted.foldl (·.insert ·) r = r₁ at hadopted hconsumed ⊢
  have hsome (id : Nat) (hid : id ∈ transferredHandles e args) : (r₁.owners id).isSome = true := by
    obtain ⟨owner, howner⟩ := howners id hid
    rw [hadopted id owner howner]
    rfl
  cases hids : transferredHandles e args with
  | nil =>
    exact iff_of_true (transactional_of_kept hids hadopted hconsumed) fun h => absurd rfl h
  | cons id rest =>
    obtain ⟨owner, howner⟩ := howners id (hids ▸ List.mem_cons_self)
    have hmem : id ∈ transferredHandles e args := hids ▸ List.mem_cons_self
    by_cases hnodup : (id :: rest).Nodup
    · rw [consumeAll_ok (hids ▸ hsome) hnodup]
      dsimp only
      have hresult := unpackResult_ok_iff (V := V) e site (r₁.without (id :: rest)) reply.result
      rw [contains_without] at hresult
      rw [← hresult]
      cases hunpack : unpackResult e site (r₁.without (id :: rest)) reply.result with
      | ok value =>
        refine iff_of_true ⟨fun id' hid' => ⟨?_, ?_⟩, fun id' hid' => ⟨?_, fun owner' howner' => ?_⟩⟩
          fun _ => ⟨hnodup, value, rfl⟩
        · rw [hids] at hid'
          exact if_pos hid'
        · rw [hids] at hid'
          change ((id :: rest).reverse ++ r₁.consumed).count id' = _
          rw [List.count_append, List.count_reverse, List.count_eq_one_of_mem hnodup hid',
            hconsumed, Nat.add_comm]
        · rw [hids] at hid'
          change ((id :: rest).reverse ++ r₁.consumed).count id' = _
          rw [List.count_append, List.count_reverse, List.count_eq_zero_of_not_mem hid', hconsumed,
            Nat.zero_add]
        · rw [hids] at hid'
          exact (if_neg hid').trans (hadopted id' owner' howner')
      | error error =>
        refine iff_of_false (not_transactional hmem howner ⟨error, rfl⟩ (if_pos List.mem_cons_self))
          fun h => ?_
        obtain ⟨-, value, hvalue⟩ := h (List.cons_ne_nil _ _)
        cases hvalue
    · -- the loop fails at the second occurrence, the first handle is gone by then
      refine iff_of_false ?_ fun h => hnodup (h (List.cons_ne_nil _ _)).1
      obtain ⟨error, herror⟩ := consumeAll_error (r := r₁) hnodup
      have hgone : (consumeAll (id :: rest) r₁).2.owners id = none := by
        rw [consumeAll, consume_registered (hsome id hmem)]
        exact owners_consumeAll_none (Function.update_self ..)
      cases hconsume : consumeAll (id :: rest) r₁ with
      | mk result r₂ =>
        rw [hconsume] at herror hgone
        subst herror
        exact not_transactional hmem howner ⟨error, rfl⟩ hgone

/-- A call is transactional exactly if it does not come to the transfers, or gives away
    different handles and has a result that can be returned once they are gone. -/
theorem transactional_iff (e : ZlNativeExport Owner) (site : CallSite) (args : List (Value V))
    (r : NativeResourceRegistry Owner) :
    Transactional e args r (invokeNativeExport e site args r) ↔ KeepsTransaction e site args r := by
  unfold invokeNativeExport KeepsTransaction
  cases hpacked : packArguments e site r args with
  | error error => exact iff_of_true (fun _ _ _ h => h) nofun
  | ok packed =>
    cases hinvoke : e.invoke with
    | none => exact iff_of_true (fun _ _ _ h => h) nofun
    | some invoke =>
      dsimp only
      by_cases hstatus : (invoke packed).status = 0
      · rw [transactional_finishCall (invoke packed) hstatus (registered_of_packArguments hpacked)]
        refine ⟨fun h packed' invoke' hpacked' hinvoke' _ => ?_, fun h => h packed invoke rfl rfl hstatus⟩
        cases hpacked'
        cases hinvoke'
        exact h
      · refine iff_of_true ?_ fun packed' invoke' hpacked' hinvoke' hstatus' => ?_
        · unfold finishCall
          rw [if_pos hstatus]
          exact fun id _ owner howner => owners_adopt _ howner
        · cases hpacked'
          cases hinvoke'
          exact absurd hstatus' hstatus

/-- A native function that takes one handle over and returns nothing it was asked for. -/
def takesHandle : ZlNativeExport Unit where
  name := some "take"
  arity := 1
  parameterTypes := some fun _ => .HANDLE
  returnType := .I64
  invoke := some fun _ => {}
  parameterOwnership := some fun _ => .CONSUMED

/-- The result is refused when the handle is already gone. -/
theorem refusedResult_loses_handle : ¬ Transactional takesHandle [(.handle 1 : Value Unit)]
    ((({} : NativeResourceRegistry Unit).insert ()))
    (invokeNativeExport takesHandle {} [(.handle 1 : Value Unit)]
      (({} : NativeResourceRegistry Unit).insert ())) := by
  intro h
  have hkept := h 1 List.mem_cons_self () rfl
  cases hkept

end

end zl.vm.native
