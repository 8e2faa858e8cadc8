import PipeLang.Program
import PipeLang.Toml.Document

/-!
# Manifests

The settings of a project, written in TOML: its name, its main module, the policy on colliding glob imports, and
where other projects lie. Sections that no one knows are refused; what a section holds beyond its own fields is
not looked at.
-/

namespace PipeLang

/-- The settings in a manifest. -/
structure Manifest where
  name : Option String
  main : Option String
  policy : GlobPolicy
  /-- Directories of other projects under `scheme://project`, in the order of the keys. -/
  external : List (String × String)

namespace Manifest

/-- What is wrong with the text of a manifest. -/
inductive Flaw where
  /-- A line that is no TOML, or contradicts an earlier one. -/
  | badLine (number : Nat)
  | unknownSection (name : String)
  | wrongType (field : String)
  /-- A name for another project that does not look like one. -/
  | badExternalKey (key : String)
  deriving DecidableEq, Repr

/-- The wording of a flaw. -/
def Flaw.message : Flaw → String
  | badLine number => "line " ++ toString number ++ " cannot be read"
  | unknownSection name => "unknown field `" ++ name ++ "`"
  | wrongType field => "field `" ++ field ++ "` has a value of the wrong type"
  | badExternalKey key => "external key `" ++ key ++ "` must look like `scheme://project`"

/-- A section: something with fields, or an array that lists the first fields in their order. -/
structure Section where
  field? : String → Option Toml

/-- The section under a name, whose fields have an order; a section that is not there has no fields. -/
def section? (es : Toml.Entries) (name : String) (order : List String) : Except Flaw Section :=
  match es.lookup name with
  | none => .ok ⟨fun _ => none⟩
  | some (.array _ items) => .ok ⟨fun field => (order.zip items).lookup field⟩
  | some value =>
    match value.entries? with
    | some fields => .ok ⟨fun field => fields.lookup field⟩
    | none => .error (.wrongType name)

/-- A field that holds a text. -/
def Section.text? (s : Section) (field : String) : Except Flaw (Option String) :=
  match s.field? field with
  | none => .ok none
  | some (.text value) => .ok (some value)
  | some _ => .error (.wrongType field)

/-- The policy of a name. -/
def policyOfName? : String → Option GlobPolicy
  | "eager" => some .eager
  | "on-use" => some .onUse
  | _ => none

/-- The policy that a value stands for: its name, or a table whose only key is its name, with nothing in it. -/
def policy? : Toml → Option GlobPolicy
  | .text name => policyOfName? name
  | .table _ [(name, .table _ [])] => policyOfName? name
  | .table _ [(name, .array _ [])] => policyOfName? name
  | _ => none

/-- The field with the policy, which is eager when nothing is said. -/
def Section.policy (s : Section) (field : String) : Except Flaw GlobPolicy :=
  match s.field? field with
  | none => .ok .eager
  | some value =>
    match policy? value with
    | some policy => .ok policy
    | none => .error (.wrongType field)

/-- The fields of a table of texts. -/
def texts (field : String) : Toml.Entries → Except Flaw (List (String × String))
  | [] => .ok []
  | (key, .text value) :: rest => do return (key, value) :: (← texts field rest)
  | _ :: _ => .error (.wrongType field)

/-- Whether a text looks like `scheme://project`: cut at the first `://`, neither side is empty and the
project has no `/`. -/
def isExternalKey (key : String) : Bool :=
  match Text.splitAtFirst [':', '/', '/'] key.toList with
  | some (scheme, project) => !scheme.isEmpty && !project.isEmpty && !project.contains '/'
  | none => false

/-- The section on other projects. -/
def externalSection (es : Toml.Entries) : Except Flaw (List (String × String)) :=
  match es.lookup "external" with
  | none => .ok []
  | some value =>
    match value.entries? with
    | some fields => do
      return (← texts "external" fields).mergeSort fun a b => !(b.1 < a.1)
    | none => .error (.wrongType "external")

/-- The names of sections. -/
def sectionNames : List String := ["project", "resolve", "external"]

/-- The settings that a document holds. -/
def ofEntries (es : Toml.Entries) : Except Flaw Manifest := do
  match es.find? fun (name, _) => !sectionNames.contains name with
  | some (name, _) => throw (.unknownSection name)
  | none =>
    let project ← section? es "project" ["name", "main"]
    let resolve ← section? es "resolve" ["glob-collisions"]
    let settings : Manifest :=
      ⟨← project.text? "name", ← project.text? "main", ← resolve.policy "glob-collisions", ← externalSection es⟩
    match settings.external.find? fun (key, _) => !isExternalKey key with
    | some (key, _) => throw (.badExternalKey key)
    | none => return settings

/-- The settings that a text spells. -/
def parse (text : String) : Except Flaw Manifest :=
  match Toml.parse text with
  | .ok es => ofEntries es
  | .error number => .error (.badLine number)

end Manifest

end PipeLang
