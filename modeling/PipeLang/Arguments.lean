import PipeLang.Expr

/-!
# Arguments

How the arguments of a call meet the parameters of a function: positional arguments fill the first
parameters, keyword arguments the parameters they name, and what stays empty must have a default. The same
rules are checked before a program runs, from names and counts alone, and applied when it runs.
-/

namespace PipeLang

/-- A parameter as the rules see it. -/
structure ParamSlot where
  name : String
  /-- Whether the parameter has a default. -/
  optional : Bool
  deriving Repr

/-- Why arguments do not fit. -/
inductive CallFault where
  | arity (expected received : Nat)
  | unknownParameter (name : String)
  | duplicateArgument (name : String)
  deriving DecidableEq, Repr

namespace ParamSlot

/-- The place of the first parameter with a name. -/
def indexOf? (params : List ParamSlot) (name : String) : Option Nat :=
  params.findIdx? fun p => p.name == name

/-- Number of parameters without a default. -/
def required (params : List ParamSlot) : Nat :=
  params.countP fun p => !p.optional

end ParamSlot

/-- Puts one keyword argument into its place. -/
def fillKeyword {α : Type} (params : List ParamSlot) (filled : List (Option α)) (keyword : String × α) :
    Except CallFault (List (Option α)) :=
  match ParamSlot.indexOf? params keyword.1 with
  | none => .error (.unknownParameter keyword.1)
  | some i =>
    match filled[i]? with
    | some none => .ok (filled.set i (some keyword.2))
    | _ => .error (.duplicateArgument keyword.1)

/-- Whether a parameter has neither an argument nor a default. -/
def isMissing {α : Type} (place : Option α × ParamSlot) : Bool :=
  place.1.isNone && !place.2.optional

/-- The argument of each parameter, `none` where the default is to be used. -/
def bindArguments {α : Type} (params : List ParamSlot) (positional : List α)
    (keyword : List (String × α)) : Except CallFault (List (Option α)) := do
  let received := positional.length + keyword.length
  if positional.length > params.length then
    throw (.arity params.length received)
  let start := positional.map some ++ List.replicate (params.length - positional.length) none
  let filled ← keyword.foldlM (fillKeyword params) start
  if (filled.zip params).any isMissing then
    throw (.arity (ParamSlot.required params) received)
  return filled

/-- What is wrong with each keyword, given how many positional arguments there are and which keywords come
before it. -/
def keywordFaults (params : List ParamSlot) (positional : Nat) :
    List String → List Ident → List (CallFault × Span)
  | _, [] => []
  | before, keyword :: rest =>
    let others := keywordFaults params positional (before ++ [keyword.name]) rest
    match ParamSlot.indexOf? params keyword.name with
    | none => (.unknownParameter keyword.name, keyword.span) :: others
    | some i =>
      if i < positional || before.contains keyword.name then
        (.duplicateArgument keyword.name, keyword.span) :: others
      else
        others

/-- What is wrong with a call, from the number of its positional arguments and its keywords alone; each fault
with its place. -/
def callFaults (params : List ParamSlot) (positional : Nat) (keywords : List Ident) (site : Span) :
    List (CallFault × Span) :=
  if positional > params.length then
    [(.arity params.length positional, site)]
  else
    match keywordFaults params positional [] keywords with
    | [] =>
      let missing := (params.drop positional).any fun p =>
        !p.optional && !keywords.any fun k => k.name == p.name
      if missing then
        [(.arity (ParamSlot.required params) (positional + keywords.length), site)]
      else
        []
    | faults => faults

end PipeLang
