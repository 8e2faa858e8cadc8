import PipeLang.Arguments
import PipeLang.Value

/-!
# Host functions

Functions that the application around the language supplies. Their signatures are known before anything runs,
so that calls are checked statically.
-/

namespace PipeLang

/-- A parameter of a host function. -/
structure HostParam where
  name : String
  ty : Ty
  fallback : Option Value

/-- The parameter as the rules of calls see it. -/
def HostParam.slot (p : HostParam) : ParamSlot :=
  ⟨p.name, p.fallback.isSome⟩

/-- The parameters and the result of a host function. -/
structure Signature where
  params : List HostParam
  returns : Ty

/-- A host function. -/
structure HostFunction where
  signature : Signature
  /-- The function itself, on one value for each parameter. The number is the identity of an object that
  the call may make; a failure is in the host's own words. -/
  apply : Nat → List Value → Except String Value

/-- The host functions of an application, in the order of registration. -/
structure Hosts where
  functions : List (String × HostFunction)

namespace Hosts

/-- No host functions. -/
def empty : Hosts := ⟨[]⟩

/-- The host function of a name. -/
def get? (h : Hosts) (name : String) : Option HostFunction :=
  h.functions.lookup name

/-- The signature of a host function. -/
def signature? (h : Hosts) (name : String) : Option Signature :=
  (h.get? name).map HostFunction.signature

/-- Replaces the function of a name in its place, or adds it at the end. -/
def put (name : String) (f : HostFunction) : List (String × HostFunction) → List (String × HostFunction)
  | [] => [(name, f)]
  | (other, g) :: rest => if other == name then (name, f) :: rest else (other, g) :: put name f rest

/-- Registers a function; it replaces an earlier one of the same name. -/
def register (h : Hosts) (name : String) (params : List HostParam) (returns : Ty)
    (apply : Nat → List Value → Except String Value) : Hosts :=
  ⟨put name ⟨⟨params, returns⟩, apply⟩ h.functions⟩

end Hosts

end PipeLang
