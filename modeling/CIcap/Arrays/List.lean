import CIcap.Lib.Links
import CIcap.Lib.Machine

/-! # Lists of objects

The `ci_list_t` of `array.c`: nodes linked from `items` to `last`, and the nodes that were removed,
linked from `trash`, which the next insertions use again. The serial allocator of a list never
takes a node back, so the memory is a list of cells that only grows; whether it can grow is
decided at each insertion. An object of a list with `obj_size` is copied in and out, the items of
a list without are the pointers themselves. `none` stands for a failed assertion, for the use of a
pointer to nothing and for a loop that does not end.
-/

namespace CIcap

open Links

variable {α σ : Type}

/-- What a list is made with. A copy handler gives the copy of an object, a free handler what is
left of it; a comparison handler tells which objects are equal. -/
structure ListOpts (α : Type) where
  objSize : Nat
  copyFunc : Option (α → α)
  freeFunc : Option (α → α)
  cmpFunc : Option (α → α → Bool)

/-- `ci_list_t` -/
structure CList (α : Type) where
  cells : List (Cell α)
  items : Option Nat
  last : Option Nat
  trash : Option Nat
  cursor : Option Nat
deriving DecidableEq

/-- `ci_list_create` -/
def CList.create : CList α :=
  { cells := [], items := none, last := none, trash := none, cursor := none }

namespace ListOpts

/-- An object as it is copied with `memcpy` and the copy handler. -/
def copy (o : ListOpts α) (x : α) : α := (o.copyFunc.getD id) x

/-- What an object is to the node that holds it, or to the caller that gets it from a node. -/
def moved (o : ListOpts α) (x : α) : α := if o.objSize = 0 then x else o.copy x

/-- What is left in a node whose object was handed out and freed. -/
def freed (o : ListOpts α) (x : α) : α :=
  if o.objSize = 0 then x else (o.freeFunc.getD id) x

/-- The comparison of `ci_list_remove`. -/
def cmp [DecidableEq α] (o : ListOpts α) (item obj : α) : Bool :=
  match o.cmpFunc with
  | some f => f item obj
  | none => decide (item = obj)

end ListOpts

namespace CList

def fuel (l : CList α) : Nat := l.cells.length + 1

/-- `ci_list_first` -/
def first (l : CList α) : Option (Option α × CList α) :=
  match l.items with
  | none => some (none, l)
  | some a => do
      let c ← l.cells[a]?
      some (some c.item, { l with cursor := c.next })

/-- `ci_list_next` -/
def next (l : CList α) : Option (Option α × CList α) :=
  match l.cursor with
  | none => some (none, l)
  | some a => do
      let c ← l.cells[a]?
      some (some c.item, { l with cursor := c.next })

/-- The item of a node, `none` for no node. -/
def itemAt (l : CList α) (p : Option Nat) : Option (Option α) :=
  match p with
  | none => some none
  | some a => (l.cells[a]?).map fun c => some c.item

/-- `ci_list_head` -/
def head (l : CList α) : Option (Option α) := l.itemAt l.items

/-- `ci_list_tail` -/
def tail (l : CList α) : Option (Option α) := l.itemAt l.last

/-- The loop of `ci_list_iterate`: the data of the callback, and the cursor. -/
def iterateLoop (cells : List (Cell α)) (fn : σ → α → σ × Bool) :
    Nat → Option Nat → σ → Option (σ × Option Nat)
  | 0, _, _ => none
  | _ + 1, none, data => some (data, none)
  | fuel + 1, some a, data => do
      let c ← cells[a]?
      let (data, stop) := fn data c.item
      if stop then some (data, c.next) else iterateLoop cells fn fuel c.next data

/-- `ci_list_iterate` -/
def iterate (l : CList α) (fn : σ → α → σ × Bool) (data : σ) : Option (σ × CList α) := do
  let (data, cursor) ← iterateLoop l.cells fn l.fuel l.items data
  some (data, { l with cursor })

/-- `list_alloc_item`: a node of the trash, or a new one if there is memory (`granted`). -/
def listAllocItem (o : ListOpts α) (l : CList α) (data : α) (granted : Bool) :
    Option (Option Nat × CList α) :=
  match l.trash with
  | some a => do
      let c ← l.cells[a]?
      some (some a, { l with trash := c.next, cells := l.cells.set a ⟨o.moved data, none⟩ })
  | none =>
    if granted then
      some (some l.cells.length, { l with cells := l.cells ++ [⟨o.moved data, none⟩] })
    else some (none, l)

/-- Store to `a->next`. -/
def setNext (l : CList α) (a : Nat) (n : Option Nat) : Option (CList α) := do
  let c ← l.cells[a]?
  some { l with cells := l.cells.set a ⟨c.item, n⟩ }

/-- `ci_list_push` -/
def push (o : ListOpts α) (l : CList α) (data : α) (granted : Bool) :
    Option (Option α × CList α) := do
  match ← listAllocItem o l data granted with
  | (none, l) => some (none, l)
  | (some it, l) =>
    let l ← match l.items with
      | some _ => (l.setNext it l.items).map fun l => { l with items := some it }
      | none => some { l with items := some it, last := some it }
    let c ← l.cells[it]?
    some (some c.item, l)

/-- `ci_list_push_back` -/
def pushBack (o : ListOpts α) (l : CList α) (data : α) (granted : Bool) :
    Option (Option α × CList α) := do
  match ← listAllocItem o l data granted with
  | (none, l) => some (none, l)
  | (some it, l) =>
    let l ← match l.last with
      | some z => (l.setNext z (some it)).map fun l => { l with last := some it }
      | none => some { l with items := some it, last := some it }
    let c ← l.cells[it]?
    some (some c.item, l)

/-- Put a node on the trash; `item` is what its object has become. -/
def recycle (l : CList α) (it : Nat) (item : α) : CList α :=
  { l with cells := l.cells.set it ⟨item, l.trash⟩, trash := some it }

/-- `ci_list_pop`: the object that is stored to `data`. -/
def pop (o : ListOpts α) (l : CList α) : Option (Option α × CList α) :=
  match l.items with
  | none => some (none, l)
  | some it => do
      let c ← l.cells[it]?
      let l := if l.last = l.items then { l with last := none, items := none, cursor := none }
        else { l with
          cursor := if l.cursor = l.items then c.next else l.cursor
          items := c.next }
      some (some (o.moved c.item), l.recycle it (o.freed c.item))

/-- `ci_list_pop_back`: the object that is stored to `data`. -/
def popBack (o : ListOpts α) (l : CList α) : Option (Option α × CList α) :=
  match l.items with
  | none => some (none, l)
  | some _ => do
      let it ← l.last
      let l ← if l.last = l.items then
          some { l with last := none, items := none, cursor := none }
        else do
          let found ← search l.cells (fun c => c.next = l.last) l.fuel none l.items
          let (_, tmp, _) ← found
          let l ← l.setNext tmp none
          some { l with cursor := if l.cursor = l.last then none else l.cursor, last := some tmp }
      let c ← l.cells[it]?
      some (some (o.moved c.item), l.recycle it (o.freed c.item))

/-- Take the node `it` out of the list, as the loops of `ci_list_remove2` and `ci_list_remove3` do
where the comparison succeeds. -/
def unlink (o : ListOpts α) (l : CList α) (prev : Option Nat) (it : Nat) (c : Cell α) :
    Option (CList α) := do
  let l ← match prev with
    | some p => l.setNext p c.next
    | none => some { l with items := c.next }
  let l := { l with cursor := if l.cursor = some it then c.next else l.cursor }
  some (l.recycle it (o.freed c.item))

/-- `ci_list_remove2`; `eq` is the comparison with the object to remove. -/
def remove2 (o : ListOpts α) (l : CList α) (eq : α → Bool) : Option (Bool × CList α) := do
  match ← search l.cells (fun c => eq c.item) l.fuel none l.items with
  | none => some (false, l)
  | some (prev, it, c) =>
    let l ← unlink o l prev it c
    some (true, l)

/-- What `ci_list_remove3` stores of the object it removes: nothing of a pointer, unless the copy
handler does. -/
def storeRemoved (o : ListOpts α) (x : α) : Option α :=
  if o.objSize = 0 then o.copyFunc.map (· x) else some (o.copy x)

/-- `ci_list_remove3`: whether an object was removed, and what was stored of it. -/
def remove3 (o : ListOpts α) (l : CList α) (eq : α → Bool) :
    Option ((Bool × Option α) × CList α) := do
  match ← search l.cells (fun c => eq c.item) l.fuel none l.items with
  | none => some ((false, none), l)
  | some (prev, it, c) =>
    let l ← unlink o l prev it c
    some ((true, storeRemoved o c.item), l)

/-- `ci_list_remove` -/
def remove [DecidableEq α] (o : ListOpts α) (l : CList α) (obj : α) : Option (Bool × CList α) :=
  remove2 o l fun item => o.cmp item obj

end CList

end CIcap
