import JitBroker.Json

/-!
# TOML documents

A TOML document is a sequence of statements: headers, which open a table or a further table of a
list, and pairs, which put a value into the open table. Names in headers and pairs may be paths,
and the tables on a path come into being as they are needed. What may be named again depends on how
a table came into being:

* a table that a header has opened is never opened by a header again;
* a table that only exists because it lay on the path of a header may still be opened by one;
* a table that a path in a pair has made can only be extended by further such paths.

A value, once written, is closed: an inline table takes no more fields.
-/

namespace JitBroker.Toml

/-- A field of a document while it is being built. -/
inductive Node where
  /-- A finished value. -/
  | value (v : Json)
  /-- A table: whether it came into being on a path, whether that path was one of a pair, and its
  fields. -/
  | table (implicit dotted : Bool) (fields : List (String × Node))
  /-- A list of tables, the latest first. -/
  | tables (items : List (List (String × Node)))

/-- The fields of a table. -/
abbrev Fields := List (String × Node)

namespace Fields

/-- Changes the field of a name; a new one comes last. -/
def alter (key : String) (f : Option Node → Option Node) : Fields → Option Fields
  | [] => (f none).map fun node => [(key, node)]
  | (k, node) :: rest =>
    if k = key then (f (some node)).map fun node => (k, node) :: rest
    else (alter key f rest).map ((k, node) :: ·)

/-- Changes the table at the end of a path, making the tables on the way as needed. The flag tells
whether the path is that of a pair; the action is told whether the table it finds was made by such
a path. -/
def within (dotted : Bool) (act : Bool → Fields → Option Fields) :
    List String → Bool → Fields → Option Fields
  | [], here, fields => act here fields
  | key :: path, _, fields =>
    alter key (fun node? =>
      match node? with
      | none => (within dotted act path dotted []).map (.table true dotted)
      | some (.value _) => none
      | some (.table implicit made inner) =>
        if dotted && !implicit then none
        else (within dotted act path made inner).map (.table implicit made)
      | some (.tables []) => none
      | some (.tables (latest :: earlier)) =>
        (within dotted act path false latest).map fun latest => .tables (latest :: earlier)) fields

/-- Adds a value, which must be new, to the table at the end of a path. -/
def insertAt (path : List String) (key : String) (v : Json) (fields : Fields) : Option Fields :=
  within true (fun made inner =>
    if made == path.isEmpty then none
    else alter key (fun node? => if node?.isSome then none else some (.value v)) inner)
    path false fields

/-- Opens the table with the given path and name. -/
def openTable (path : List String) (key : String) (fields : Fields) : Option Fields :=
  within false (fun _ inner =>
    alter key (fun node? =>
      match node? with
      | none => some (.table false false [])
      | some (.table true false fields) => some (.table false false fields)
      | _ => none) inner)
    path false fields

/-- Opens a further table of the list with the given path and name. -/
def openItem (path : List String) (key : String) (fields : Fields) : Option Fields :=
  within false (fun _ inner =>
    alter key (fun node? =>
      match node? with
      | none => some (.tables [[]])
      | some (.tables items) => some (.tables ([] :: items))
      | _ => none) inner)
    path false fields

end Fields

mutual

/-- The value of a field. -/
def Node.toJson : Node → Json
  | .value v => v
  | .table _ _ fields => .obj (fieldsToJson fields)
  | .tables items => .arr (itemsToJson items).reverse

/-- The values of the tables of a list. -/
def itemsToJson : List (List (String × Node)) → List Json
  | [] => []
  | fields :: rest => .obj (fieldsToJson fields) :: itemsToJson rest

/-- The values of the fields of a table. -/
def fieldsToJson : List (String × Node) → List (String × Json)
  | [] => []
  | (key, node) :: rest => (key, node.toJson) :: fieldsToJson rest

end

/-- A name with the tables it lies in. -/
structure KeyPath where
  /-- The tables, outermost first. -/
  path : List String
  /-- The name in the innermost of them. -/
  key : String

/-- The statements of a document. -/
inductive Statement where
  /-- Puts a value into the open table. -/
  | pair (name : KeyPath) (v : Json)
  /-- Opens a table. -/
  | table (name : KeyPath)
  /-- Opens a further table of a list. -/
  | item (name : KeyPath)

/-- A document that is being built. -/
structure Document where
  /-- The fields of the whole document. -/
  root : Fields := []
  /-- The path of the open table. -/
  here : List String := []

namespace Document

/-- The document after one more statement. -/
def add (d : Document) : Statement → Option Document
  | .pair name v => do
    return { d with
      root := ← Fields.within false (fun _ fields => fields.insertAt name.path name.key v)
        d.here false d.root }
  | .table name => do
    return ⟨← Fields.openTable name.path name.key d.root, name.path ++ [name.key]⟩
  | .item name => do
    return ⟨← Fields.openItem name.path name.key d.root, name.path ++ [name.key]⟩

/-- The value that a sequence of statements stands for. -/
def ofStatements? (statements : List Statement) : Option Json := do
  let d ← statements.foldlM add {}
  return .obj (fieldsToJson d.root)

end Document

/-- The value of an inline table with the given pairs. -/
def inlineTable? (pairs : List (KeyPath × Json)) : Option Json := do
  let fields ← pairs.foldlM (fun (fields : Fields) (name, v) =>
    fields.insertAt name.path name.key v) []
  return .obj (fieldsToJson fields)

end JitBroker.Toml
