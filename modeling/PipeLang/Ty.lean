/-!
# Static types

The types that annotations name and that resolution infers. `Ty.any` stands for what is not known; `join`
merges what is known of two branches or of two elements.
-/

namespace PipeLang

/-- A static type. -/
inductive Ty where
  | number
  | bool
  | string
  | array (element : Ty)
  /-- A function with the given result. -/
  | function (result : Ty)
  | module
  /-- A kind of value that only host functions make, such as `Solid`. -/
  | named (name : String)
  | unit
  | any
  deriving DecidableEq, Repr, Inhabited

namespace Ty

/-- The type that an annotation names. -/
def ofName (name : String) : Ty :=
  match name with
  | "Number" | "number" => number
  | "Bool" | "bool" => bool
  | "String" | "string" => string
  | "Fn" => function any
  | "Module" => module
  | "Any" | "any" => any
  | other => named other

/-- The text of a type. -/
def render : Ty → String
  | number => "Number"
  | bool => "Bool"
  | string => "String"
  | array element => "[" ++ element.render ++ "]"
  | function result => "Fn -> " ++ result.render
  | module => "Module"
  | named name => name
  | unit => "()"
  | any => "Any"

/-- The type of the elements when a value of this type is iterated. -/
def element : Ty → Ty
  | array e => e
  | _ => any

/-- The type of a call's result. -/
def result : Ty → Ty
  | function r => r
  | _ => any

/-- Equal types stay, `any` yields to the other side, and all else is `any`. -/
def join (a b : Ty) : Ty :=
  if a = b then a else if a = any then b else if b = any then a else any

@[simp] theorem join_self (a : Ty) : a.join a = a := by
  simp [join]

@[simp] theorem any_join (a : Ty) : any.join a = a := by
  by_cases h : any = a <;> simp [join, h]

@[simp] theorem join_any (a : Ty) : a.join any = a := by
  by_cases h : a = any <;> simp [join, h]

theorem join_comm (a b : Ty) : a.join b = b.join a := by
  by_cases same : a = b
  · rw [same]
  · by_cases left : a = any
    · simp [left]
    · by_cases right : b = any
      · simp [right]
      · simp [join, same, left, right, Ne.symm same]

/-- The join of the elements of an array literal, `any` for the empty literal. -/
def joinAll : List Ty → Ty
  | [] => any
  | first :: rest => rest.foldl join first

end Ty

end PipeLang
