import PipeLang.Scope

/-!
# Exports

The names that a module offers to others, in the order of declaration. The table grows while the module is
resolved, and a module that is reached through an import cycle shows what it has offered so far.
-/

namespace PipeLang

/-- What kind of thing is exported. -/
inductive ExportKind where
  | function
  | constant
  | module
  deriving DecidableEq, Repr

/-- One exported name. -/
structure Export where
  name : String
  target : Target
  kind : ExportKind
  /-- Where the exporting module declares or imports the name. -/
  site : Span
  ty : Ty
  /-- Whether the name comes from another module. -/
  reexport : Bool
  deriving Repr

/-- The exports of one module. -/
structure Exports where
  entries : List Export
  /-- The place of the trailing expression, which makes the module usable as a value. -/
  assembly : Option Span
  deriving Repr

namespace Exports

/-- No exports. -/
def empty : Exports := ⟨[], none⟩

/-- The export of a name. -/
def get? (t : Exports) (name : String) : Option Export :=
  t.entries.find? fun e => e.name == name

/-- Adds an export, unless its name is taken; then the export that has the name is the answer. -/
def insert (t : Exports) (e : Export) : Except Export Exports :=
  match t.get? e.name with
  | some first => .error first
  | none => .ok { t with entries := t.entries ++ [e] }

/-- The exported names, in the order of declaration. -/
def names (t : Exports) : List String :=
  t.entries.map Export.name

end Exports

end PipeLang
