import Coverability.Toml.Basic

/-!
# Putting a document together

A document is a list of statements. A header opens a table, and the assignments after it set keys in
that table. No key is set twice, no table is opened twice, and nothing is added to an inline table.
-/

namespace Coverability.Toml

structure Path where
  parents : List String
  key : String
deriving DecidableEq, Repr

inductive Statement where
  | table (path : Path)
  /-- A header between double brackets, which opens a new item of an array. -/
  | item (path : Path)
  | assign (path : Path) (value : Value)
deriving Repr

namespace Table

/-- The table after a path has passed through it. A dotted key takes over an implied table, but enters
none that has a header of its own. -/
def passed? (dotted : Bool) (table : Table Value) : Option (Table Value) :=
  match table.kind with
  | .inlined => none
  | .headed => if dotted then none else some table
  | .implied => if dotted then some { table with kind := .dotted } else some table
  | .dotted => some table

/-- Changes the table at the end of a path, which is that of a dotted key or of a header. Missing tables
are made on the way, and an array of tables stands for its last item. -/
def modifyAt? (dotted : Bool) (change : Table Value → Option (Table Value)) :
    List String → Table Value → Option (Table Value)
  | [], table => change table
  | name :: path, table => do
    match table.get? name with
    | none =>
      let inner ← modifyAt? dotted change path (.empty (if dotted then .dotted else .implied))
      return table.put name (.table inner)
    | some (.table inner) =>
      let inner ← modifyAt? dotted change path (← inner.passed? dotted)
      return table.put name (.table inner)
    | some (.array true items) =>
      match items.getLast? with
      | some (.table last) =>
        let last ← modifyAt? dotted change path last
        return table.put name (.array true (items.dropLast ++ [.table last]))
      | _ => none
    | some _ => none

/-- Sets a dotted key. Its last parent must not be the item of an array of tables. -/
def assign? (table : Table Value) (path : Path) (value : Value) : Option (Table Value) :=
  table.modifyAt? true
    (fun inner =>
      if path.parents = [] ↔ inner.kind = .dotted then none
      else if (inner.get? path.key).isSome then none
      else some (inner.put path.key value))
    path.parents

/-- Opens a table by its header. A table that other headers pass through may still be opened. -/
def openTable? (root : Table Value) (path : Path) : Option (Table Value) :=
  root.modifyAt? false
    (fun parent =>
      match parent.get? path.key with
      | none => some (parent.put path.key (.table (.empty .headed)))
      | some (.table table) =>
        if table.kind = .implied then
          some (parent.put path.key (.table { table with kind := .headed }))
        else none
      | some _ => none)
    path.parents

/-- Opens a new item of an array of tables by its header. -/
def openItem? (root : Table Value) (path : Path) : Option (Table Value) :=
  root.modifyAt? false
    (fun parent =>
      match parent.get? path.key with
      | none => some (parent.put path.key (.array true [.table (.empty .headed)]))
      | some (.array true items) =>
        some (parent.put path.key (.array true (items ++ [.table (.empty .headed)])))
      | some _ => none)
    path.parents

def ofAssignments? (assignments : List (Path × Value)) : Option (Table Value) :=
  assignments.foldlM (fun table (path, value) => table.assign? path value) (.empty .inlined)

end Table

/-- A document up to some statement, and the names of the table that is open. -/
structure Document where
  root : Table Value := .empty .headed
  current : List String := []

namespace Document

def add? (document : Document) : Statement → Option Document
  | .table path => do
    return { root := ← document.root.openTable? path, current := path.parents ++ [path.key] }
  | .item path => do
    return { root := ← document.root.openItem? path, current := path.parents ++ [path.key] }
  | .assign path value => do
    let root ← document.root.modifyAt? false (·.assign? path value) document.current
    return { document with root := root }

def ofStatements? (statements : List Statement) : Option (Table Value) :=
  (statements.foldlM add? {}).map (·.root)

end Document

end Coverability.Toml
