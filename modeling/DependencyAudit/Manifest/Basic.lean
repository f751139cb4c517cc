import DependencyAudit.Abort
import DependencyAudit.Json.Basic

/-!
# Manifests

A manifest declares dependencies in three classes, each a mapping from package
names to versions that lists a name once.  A repeated name keeps the place of
its first member and takes the version of its last.  A class may be absent, which
counts as empty wherever names are listed.
-/

namespace DependencyAudit

/-- Versions by package name, in the order in which the names first occur. -/
structure Mapping where
  entries : List (CodeText × Json)
  unique : (entries.map Prod.fst).Nodup

namespace Mapping

def empty : Mapping := ⟨[], List.nodup_nil⟩

/-- Entries in which a name has a version: in the place of the name, or last. -/
def putIn (name : CodeText) (version : Json) : List (CodeText × Json) → List (CodeText × Json)
  | [] => [(name, version)]
  | entry :: rest =>
    if entry.1 = name then (name, version) :: rest
    else entry :: putIn name version rest

theorem names_putIn (name : CodeText) (version : Json) (entries : List (CodeText × Json)) :
    (putIn name version entries).map Prod.fst =
      if name ∈ entries.map Prod.fst then entries.map Prod.fst
      else entries.map Prod.fst ++ [name] := by
  induction entries with
  | nil => rfl
  | cons entry rest ih =>
      by_cases h : entry.1 = name
      · simp [putIn, h]
      · simp only [putIn, if_neg h, List.map_cons, ih, List.mem_cons, Ne.symm h, false_or]
        split <;> rfl

def put (mapping : Mapping) (name : CodeText) (version : Json) : Mapping where
  entries := putIn name version mapping.entries
  unique := by
    rw [names_putIn]
    split
    · exact mapping.unique
    · next h =>
        rw [List.nodup_append]
        refine ⟨mapping.unique, by simp, ?_⟩
        intro left hleft right hright heq
        rw [List.mem_singleton] at hright
        exact h (hright ▸ heq ▸ hleft)

/-- The mapping that members with repeated names amount to. -/
def ofMembers (members : List (CodeText × Json)) : Mapping :=
  members.foldl (fun mapping member => mapping.put member.1 member.2) empty

def names (mapping : Mapping) : List CodeText :=
  mapping.entries.map Prod.fst

end Mapping

inductive DependencyClass where
  | production
  | development
  | peer
  deriving DecidableEq, Repr

/-- The member of a manifest that declares a class. -/
def DependencyClass.field : DependencyClass → String
  | .production => "dependencies"
  | .development => "devDependencies"
  | .peer => "peerDependencies"

def DependencyClass.all : List DependencyClass := [.production, .development, .peer]

def DependencyClass.ofField (name : String) : Except Abort DependencyClass :=
  match DependencyClass.all.find? fun cls => cls.field = name with
  | some cls => .ok cls
  | none => .error (.unknownClass name)

structure Manifest where
  name : Option CodeText := none
  version : Option CodeText := none
  dependencies : Option Mapping := none
  devDependencies : Option Mapping := none
  peerDependencies : Option Mapping := none

namespace Manifest

def mapping? (manifest : Manifest) : DependencyClass → Option Mapping
  | .production => manifest.dependencies
  | .development => manifest.devDependencies
  | .peer => manifest.peerDependencies

def names (manifest : Manifest) (cls : DependencyClass) : List CodeText :=
  match manifest.mapping? cls with
  | none => []
  | some mapping => mapping.names

/-- The names that classes declare, each where it is first declared. -/
def merged (manifest : Manifest) (classes : List DependencyClass) : List CodeText :=
  (classes.flatMap manifest.names).eraseDups

def productionNames (manifest : Manifest) : List CodeText :=
  manifest.merged [.production]

def allNames (manifest : Manifest) : List CodeText :=
  manifest.merged DependencyClass.all

/-- The names whose use is checked: those of production, or of every class. -/
def declared (manifest : Manifest) (checkAll : Bool) : List CodeText :=
  if checkAll then manifest.allNames else manifest.productionNames

theorem names_nodup (manifest : Manifest) (cls : DependencyClass) :
    (manifest.names cls).Nodup := by
  unfold names
  split
  · exact List.nodup_nil
  · next mapping _ => exact mapping.unique

end Manifest

end DependencyAudit
