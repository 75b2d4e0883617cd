import Zl.Program.Loops
import Zl.Vm.Native.ListRefinement

open zl.program zl.program.Program zl.vm.native

namespace zl.stdlib.list

abbrev Fault := collections.Fault

abbrev ListId := Nat

/-- The lists that a program holds, by their ids, and everything else it holds. -/
structure Store (T W : Type) where
  items : ListId → List T
  next : ListId
  world : W

abbrev Code (T W : Type) := Program (Store T W) Fault

/-- Code of the user: it may read the lists, it may change anything but the lists, and it may raise. -/
abbrev Callback (T W A B : Type) := Store T W → A → Except Fault B × W

namespace Store
variable {T W : Type} (s : Store T W)

def setItems (id : ListId) (items : List T) : Store T W :=
  { s with items := fun other => if other = id then items else s.items other }

def setWorld (world : W) : Store T W := { s with world }

/-- The store with one more list. -/
def allocate (items : List T) : Store T W := { s.setItems s.next items with next := s.next + 1 }

end Store

section
variable {T W A B : Type}

def call (f : Callback T W A B) (a : A) : Code T W B :=
  step fun s => ((f s a).1, s.setWorld (f s a).2)

def exception (message : String) : Code T W A := raise ⟨"Exception", message⟩

/-- `requireIndex`: the place of an index within a size. -/
def indexFault (index : Int) (size : Nat) (fnName : String) : Fault :=
  ⟨"IndexError", fnName ++ ": index " ++ toString index ++ " out of bounds (size " ++ toString size ++ ")"⟩

def newList : Code T W ListId := step fun s => (.ok s.next, s.allocate [])

section
variable (this : ListId)

def push (item : T) : Code T W Unit := step fun s => (.ok (), s.setItems this (s.items this ++ [item]))

def get (index : Int) : Code T W T := step fun s =>
  if h : 0 ≤ index ∧ index.toNat < (s.items this).length then
    (.ok ((s.items this).get ⟨index.toNat, h.2⟩), s)
  else (.error (indexFault index (s.items this).length "Collection.get"), s)

def put (index : Int) (item : T) : Code T W Unit := step fun s =>
  if 0 ≤ index ∧ index.toNat < (s.items this).length then
    (.ok (), s.setItems this ((s.items this).set index.toNat item))
  else (.error (indexFault index (s.items this).length "Collection.set"), s)

def length : Code T W Int := step fun s => (.ok (s.items this).length, s)

def isEmpty : Code T W Bool := do return (← length this) == 0

/-- `Collection.pop`. -/
def takeLast : Code T W T := step fun s =>
  match (s.items this).getLast? with
  | some item => (.ok item, s.setItems this (s.items this).dropLast)
  | none => (.error { message := "Collection.pop: cannot pop from an empty list" }, s)

def pop : Code T W T := do
  if ← isEmpty this then exception "List.pop called on empty list" else takeLast this

def last : Code T W T := do
  if ← isEmpty this then exception "List.last called on empty list"
  else get this ((← length this) - 1)

def clear : Code T W Unit :=
  whileLoop (fun _ => do return (← length this) > 0) (fun _ => do let _ ← pop this) ()

def insert (index : Int) (item : T) : Code T W Unit := do
  let size ← length this
  if index < 0 ∨ index > size then exception "List.insert index out of range"
  else if index = size then push this item
  else
    push this (← last this)
    let i := (← length this) - 1
    let _ ← whileLoop (fun i => return i > index)
      (fun i => do
        put this i (← get this (i - 1))
        return i - 1) i
    put this index item

def removeAt (index : Int) : Code T W T := do
  let size ← length this
  if index < 0 ∨ index ≥ size then exception "List.removeAt index out of range"
  else
    let removed ← get this index
    let _ ← whileLoop (fun i => do return i + 1 < (← length this))
      (fun i => do
        put this i (← get this (i + 1))
        return i + 1) index
    let _ ← pop this
    return removed

def swap (first second : Int) : Code T W Unit := do
  let size ← length this
  if first < 0 ∨ second < 0 ∨ first ≥ size ∨ second ≥ size then
    exception "List.swap index out of range"
  else if first = second then return
  else
    let value ← get this first
    put this first (← get this second)
    put this second value

def reverse : Code T W Unit := do
  let right := (← length this) - 1
  let _ ← whileLoop (fun ends => return ends.1 < ends.2)
    (fun ends => do
      let (left, right) := ends
      let a ← get this left
      put this left (← get this right)
      put this right a
      return (left + 1, right - 1)) ((0 : Int), right)

def copy : Code T W ListId := do
  let result ← newList
  forLoop 0 (← length this) (fun i _ => do push result (← get this i)) ()
  return result

def extend (other : ListId) : Code T W Unit := do
  forLoop 0 (← length other) (fun i _ => do push this (← get other i)) ()

def slice (start stop : Int) : Code T W ListId := do
  let size ← length this
  if start < 0 ∨ stop < start ∨ stop > size then exception "List.slice bounds out of range"
  else
    let result ← newList
    let _ ← whileLoop (fun i => return i < stop)
      (fun i => do
        push result (← get this i)
        return i + 1) start
    return result

def take (count : Int) : Code T W ListId := do
  if count < 0 then exception "List.take count must be non-negative"
  else
    let size ← length this
    slice this 0 (if count > size then size else count)

def drop (count : Int) : Code T W ListId := do
  if count < 0 then exception "List.drop count must be non-negative"
  else
    let size ← length this
    slice this (if count > size then size else count) (← length this)

def removeRange (start stop : Int) : Code T W Unit := do
  let size ← length this
  if start < 0 ∨ stop < start ∨ stop > size then exception "List.removeRange bounds out of range"
  else
    let removed := stop - start
    let _ ← whileLoop (fun i => do return i + removed < (← length this))
      (fun i => do
        put this i (← get this (i + removed))
        return i + 1) start
    let _ ← whileLoop (fun remaining => return remaining > 0)
      (fun remaining => do
        let _ ← pop this
        return remaining - 1) removed

def concat (other : ListId) : Code T W ListId := do
  let result ← copy this
  extend result other
  return result

end

section
variable (equal : T → T → Except Fault Bool) (this : ListId)

def contains (item : T) : Code T W Bool := do
  let found ← forRange 0 (← length this) (fun i _ => do
    if ← answer (equal (← get this i) item) then return .leave true else return .next ()) ()
  match found with
  | .leave result => return result
  | .next _ => return false

def indexOf (item : T) : Code T W Int := do
  let found ← forRange 0 (← length this) (fun i _ => do
    if ← answer (equal (← get this i) item) then return .leave i else return .next ()) ()
  match found with
  | .leave result => return result
  | .next _ => return -1

def remove (item : T) : Code T W Bool := do
  let index ← indexOf equal this item
  if index < 0 then return false
  else
    let _ ← removeAt this index
    return true

def removeAll (item : T) : Code T W Int := do
  let index ← indexOf equal this item
  let done ← whileLoop (fun locals => return locals.2 ≥ 0)
    (fun locals => do
      let (removed, index) := locals
      let _ ← removeAt this index
      return (removed + 1, ← indexOf equal this item)) ((0 : Int), index)
  return done.1

def distinct : Code T W ListId := do
  let result ← newList
  forLoop 0 (← length this) (fun i _ => do
    let item ← get this i
    if !(← contains equal result item) then push result item else return) ()
  return result

def startsWith (other : ListId) : Code T W Bool := do
  if (← length other) > (← length this) then return false
  else
    let found ← forRange 0 (← length other) (fun i _ => do
      if !(← answer (equal (← get this i) (← get other i))) then return .leave false
      else return .next ()) ()
    match found with
    | .leave result => return result
    | .next _ => return true

def endsWith (other : ListId) : Code T W Bool := do
  let offset := (← length this) - (← length other)
  if offset < 0 then return false
  else
    let found ← forRange 0 (← length other) (fun i _ => do
      if !(← answer (equal (← get this (offset + i)) (← get other i))) then return .leave false
      else return .next ()) ()
    match found with
    | .leave result => return result
    | .next _ => return true

end

section
variable (this : ListId)

def filter (predicate : Callback T W T Bool) : Code T W ListId := do
  let result ← newList
  forLoop 0 (← length this) (fun i _ => do
    let item ← get this i
    if ← call predicate item then push result item else return) ()
  return result

def forEach (action : Callback T W T Unit) : Code T W Unit := do
  forLoop 0 (← length this) (fun i _ => do call action (← get this i)) ()

def transform (f : Callback T W T T) : Code T W ListId := do
  let result ← newList
  forLoop 0 (← length this) (fun i _ => do push result (← call f (← get this i))) ()
  return result

def reduce (combine : Callback T W (T × T) T) (start : T) : Code T W T := do
  forLoop 0 (← length this) (fun i result => do call combine (result, ← get this i)) start

/-- The loop condition of `takeWhile` and `dropWhile`. -/
def holdsAt (predicate : Callback T W T Bool) (i : Int) : Code T W Bool := do
  if i < (← length this) then call predicate (← get this i) else return false

def takeWhile (predicate : Callback T W T Bool) : Code T W ListId := do
  let result ← newList
  let _ ← whileLoop (holdsAt this predicate)
    (fun i => do
      push result (← get this i)
      return i + 1) 0
  return result

def dropWhile (predicate : Callback T W T Bool) : Code T W ListId := do
  let start ← whileLoop (holdsAt this predicate) (fun start => return start + 1) 0
  slice this start (← length this)

def removeWhere (predicate : Callback T W T Bool) : Code T W Int := do
  let kept ← newList
  let removed ← forLoop 0 (← length this) (fun i removed => do
    let item ← get this i
    if ← call predicate item then return removed + 1
    else
      push kept item
      return removed) (0 : Int)
  if removed = 0 then return 0
  else
    clear this
    extend this kept
    return removed

def sort (less : Callback T W (T × T) Bool) : Code T W Unit := do
  let _ ← whileLoop (fun i => do return i < (← length this))
    (fun i => do
      let current ← get this i
      let j ← whileLoop
        (fun j => do if j ≥ 0 then call less (current, ← get this j) else return false)
        (fun j => do
          put this (j + 1) (← get this j)
          return j - 1) (i - 1)
      put this (j + 1) current
      return i + 1) 1

def sorted (less : Callback T W (T × T) Bool) : Code T W ListId := do
  let result ← copy this
  sort result less
  return result

def binarySearch (equal : T → T → Except Fault Bool) (item : T) (less : Callback T W (T × T) Bool) :
    Code T W Int := do
  let high := (← length this) - 1
  loop (fun bounds => do
    let (low, high) := bounds
    if low ≤ high then
      let mid := low + (high - low).tdiv 2
      let probe ← get this mid
      if ← answer (equal probe item) then return .leave mid
      else if ← call less (probe, item) then return .next (mid + 1, high)
      else return .next (low, mid - 1)
    else return .leave (-1)) ((0 : Int), high)

end

end

end zl.stdlib.list
