/-
Memory states: what each memory location may hold.

A cell that was never written on any way to a point is absent and reads as public. Storing replaces
what a cell held, scrubbing makes it absent, and where ways meet the states are joined cell by
cell. The cells keep the order in which they were first written, because a load that may read
several cells takes the first chain in that order.
-/
import ConstantTime.Taint.Label

set_option autoImplicit false

namespace ConstantTime

/-- The taints of the written memory cells. -/
structure Memory where
  cells : Table Taint

namespace Memory

def empty : Memory := ⟨Table.empty⟩

instance : Inhabited Memory := ⟨empty⟩

/-- What a cell may hold. -/
def read (m : Memory) (l : String) : Taint := (m.cells.get? l).getD .pub

/-- Stores a taint in a cell. -/
def store (m : Memory) (l : String) (t : Taint) : Memory := ⟨m.cells.set l t⟩

/-- Forgets what a cell held. -/
def clear (m : Memory) (l : String) : Memory := ⟨m.cells.erase l⟩

/-- Adds one cell of another state. -/
def joinCell (m : Memory) (cell : String × Taint) : Memory :=
  match m.cells.get? cell.1 with
  | some t => m.store cell.1 (t.join cell.2)
  | none => m.store cell.1 cell.2

/-- The state where two ways meet. -/
def join (m n : Memory) : Memory := n.cells.entries.foldl joinCell m

/-- Whether a state says more about some cell than an older one. -/
def improvesOn (m old : Memory) : Bool := m.cells.entries.any fun c => (old.read c.1).improves c.2

/-- Whether two states have the same cells with the same taints, in whatever order. -/
def sameAs (m n : Memory) : Bool :=
  m.cells.size == n.cells.size && m.cells.entries.all fun c => n.cells.get? c.1 == some c.2

/-- A state in messages: its tainted cells by name. -/
def text (m : Memory) : String :=
  match sortByName Prod.fst (m.cells.entries.filter fun c => c.2.isTainted) with
  | [] => "Memory(clean)"
  | cells => "Memory(" ++ ", ".intercalate (cells.map fun c => c.1 ++ "=" ++ c.2.text) ++ ")"

end Memory

end ConstantTime
