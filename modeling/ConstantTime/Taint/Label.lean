/-
Taints: how secret a value may be, and where a secret came from.

Three labels are ordered: public, then unknown, then secret. A taint is a label with a chain of
value names that leads from a secret source to the value; it is empty if no such source is known.
Joining taints takes the highest label. Its chain is the first one found among the inputs with that
label, or else the first one at all, so that a known source is never lost.
-/
import ConstantTime.Program.Basic

set_option autoImplicit false

namespace ConstantTime

/-- How secret a value may be. -/
inductive Label
  | pub
  | unknown
  | secret
  deriving DecidableEq

namespace Label

/-- The place of a label in the order. -/
def rank : Label → Nat
  | .pub => 1
  | .unknown => 2
  | .secret => 3

instance : LE Label := ⟨fun a b => a.rank ≤ b.rank⟩

instance : LT Label := ⟨fun a b => a.rank < b.rank⟩

instance (a b : Label) : Decidable (a ≤ b) := inferInstanceAs (Decidable (a.rank ≤ b.rank))

instance (a b : Label) : Decidable (a < b) := inferInstanceAs (Decidable (a.rank < b.rank))

/-- The higher of two labels. -/
def join (a b : Label) : Label := if a ≤ b then b else a

def ofSensitivity : Sensitivity → Label
  | .pub => .pub
  | .unknown => .unknown
  | .secret => .secret

/-- Anything above public. -/
def isTainted (l : Label) : Bool := decide (.unknown ≤ l)

/-- The name of a label in data. -/
def name : Label → String
  | .pub => "public"
  | .unknown => "unknown"
  | .secret => "secret"

/-- The name of a label in messages. -/
def title : Label → String
  | .pub => "Public"
  | .unknown => "Unknown"
  | .secret => "Secret"

def all : List Label := [.pub, .unknown, .secret]

def ofName? (s : String) : Option Label := all.find? fun l => l.name == s

end Label

/-- The taint of a value or of a memory cell. -/
structure Taint where
  label : Label
  /-- Value names from a secret source to here; empty if no source is known. -/
  chain : List String
  deriving DecidableEq

namespace Taint

def pub : Taint := ⟨.pub, []⟩

def unknown : Taint := ⟨.unknown, []⟩

/-- The taint of a secret source: its chain is itself. -/
def source (v : String) : Taint := ⟨.secret, [v]⟩

def isSecret (t : Taint) : Bool := decide (t.label = .secret)

def isTainted (t : Taint) : Bool := t.label.isTainted

/-- A secret source is known. -/
def hasOrigin (t : Taint) : Bool := !t.chain.isEmpty

/-- The taint on its way into the value `v`. -/
def extended (t : Taint) (v : String) : Taint :=
  if t.chain = [] ∨ t.chain.getLast? = some v then t else ⟨t.label, t.chain ++ [v]⟩

def withLabel (t : Taint) (l : Label) : Taint := ⟨l, t.chain⟩

/-- A taint in messages: the label, and the chain if there is one. -/
def text (t : Taint) : String :=
  if t.chain = [] then t.label.title
  else t.label.title ++ "(" ++ " -> ".intercalate t.chain ++ ")"

/-- The highest label of a list, public for none. -/
def highest : List Taint → Label
  | [] => .pub
  | t :: ts => t.label.join (highest ts)

/-- The first chain of a list of taints that is not empty. -/
def firstChain (ts : List Taint) : Option (List String) :=
  (ts.find? hasOrigin).map Taint.chain

/-- The least upper bound of a list. -/
def joinAll (ts : List Taint) : Taint :=
  let label := highest ts
  ⟨label, (firstChain (ts.filter fun t => decide (t.label = label)) <|> firstChain ts).getD []⟩

/-- The least upper bound of two taints; the first one's chain is preferred. -/
def join (a b : Taint) : Taint := joinAll [a, b]

/-- Whether `new` says more than `old`: a higher label, or the first chain at the same label. -/
def improves (old new : Taint) : Bool :=
  decide (old.label < new.label) ||
    (decide (new.label = old.label) && !old.hasOrigin && new.hasOrigin)

end Taint

end ConstantTime
