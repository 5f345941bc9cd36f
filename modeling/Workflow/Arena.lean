/-!
# Arenas

An arena keeps values in numbered cells. A value keeps its cell until it is erased; a cell that was
freed is filled again before a new one is made, the one freed last first. Values can be listed by
cell or by age.
-/

namespace Workflow

/-- Values in numbered cells. -/
structure Arena (α : Type) where
  /-- The cells that hold a value, the one filled last first. -/
  entries : List (Nat × α)
  /-- The cells that were freed, the one freed last first. -/
  free : List Nat
  deriving DecidableEq, Repr

namespace Arena

variable {α : Type}

/-- The arena without cells. -/
def empty : Arena α := ⟨[], []⟩

/-- The value in a cell. -/
def get? (a : Arena α) (i : Nat) : Option α := (a.entries.find? (·.1 = i)).map Prod.snd

/-- The cell that the next value is put into. -/
def nextCell (a : Arena α) : Nat := a.free.headD (a.entries.length + a.free.length)

/-- Puts a value into the next cell. -/
def insert (a : Arena α) (v : α) : Arena α := ⟨(a.nextCell, v) :: a.entries, a.free.tail⟩

/-- Frees a cell that holds a value. -/
def erase (a : Arena α) (i : Nat) : Arena α :=
  if (a.get? i).isSome then ⟨a.entries.filter (·.1 ≠ i), i :: a.free⟩ else a

/-- Changes the value in a cell. -/
def modify (a : Arena α) (i : Nat) (f : α → α) : Arena α :=
  { a with entries := a.entries.map fun e => if e.1 = i then (e.1, f e.2) else e }

/-- The cells whose values satisfy `p`, with these values, the one filled first first. -/
def select (a : Arena α) (p : α → Bool) : List (Nat × α) :=
  (a.entries.filter fun e => p e.2).reverse

/-- Puts an entry in front of the first one with a greater cell. -/
def insertByCell (e : Nat × α) : List (Nat × α) → List (Nat × α)
  | [] => [e]
  | f :: rest => if e.1 < f.1 then e :: f :: rest else f :: insertByCell e rest

/-- The cells that hold a value, with these values, in the order of the cells. -/
def listed (a : Arena α) : List (Nat × α) :=
  a.entries.foldl (fun sorted e => insertByCell e sorted) []

/-- The values in the order of their cells. -/
def toList (a : Arena α) : List α := a.listed.map Prod.snd

/-- The number of values. -/
def size (a : Arena α) : Nat := a.entries.length

theorem get?_insert (a : Arena α) (v : α) (i : Nat) :
    (a.insert v).get? i = if a.nextCell = i then some v else a.get? i := by
  by_cases h : a.nextCell = i <;> simp [get?, insert, h]

theorem get?_erase_self (a : Arena α) (i : Nat) : (a.erase i).get? i = none := by
  unfold erase
  split
  next => simp [get?]
  next h => simpa using h

theorem get?_erase_of_ne (a : Arena α) {i j : Nat} (h : i ≠ j) :
    (a.erase i).get? j = a.get? j := by
  unfold erase
  split
  · rw [get?, get?, List.find?_filter]
    congr 2
    funext e
    by_cases he : e.1 = j
    · simp [he, Ne.symm h]
    · simp [he]
  · rfl

theorem get?_modify (a : Arena α) (i j : Nat) (f : α → α) :
    (a.modify i f).get? j = if i = j then (a.get? j).map f else a.get? j := by
  rw [get?, get?, modify]
  induction a.entries with
  | nil => simp
  | cons e rest ih => by_cases he : e.1 = i <;> by_cases hj : e.1 = j <;> grind

example : (((empty.insert 'a').insert 'b').erase 0).toList = ['b'] := by decide
example : ((((empty.insert 'a').insert 'b').erase 0).insert 'c').toList = ['c', 'b'] := by decide
example : ((((empty.insert 'a').insert 'b').erase 0).insert 'c').select (fun _ => true)
    = [(1, 'b'), (0, 'c')] := by decide

end Arena

end Workflow
