import TypedClient.Json.Basic

/-!
# Tables of TOML

A document is a table of values, tables and lists of tables. A table comes about by
its header, on the way to another header, or by a dotted key, and that decides who
may add to it later: a header makes a table once, and a dotted key adds only to
tables that dotted keys have made. A value never changes.
-/

namespace TypedClient.Toml

/-- How a table came about. -/
inductive Standing where
  /-- By a header of its own, or as the document itself. -/
  | declared
  /-- On the way to another header. -/
  | implied
  /-- By a dotted key. -/
  | dotted
deriving DecidableEq, Repr, Inhabited

mutual

/-- What stands under a key. -/
inductive Item where
  | value (value : Json)
  | table (table : Table)
  | tables (tables : List Table)

/-- A table, with its keys in the order in which they were declared. -/
inductive Table where
  | mk (standing : Standing) (entries : List (String × Item))

end

namespace Table

/-- How the table came about. -/
def standing : Table → Standing
  | ⟨standing, _⟩ => standing

/-- The keys and what stands under them. -/
def entries : Table → List (String × Item)
  | ⟨_, entries⟩ => entries

/-- A table without entries. -/
def empty (standing : Standing) : Table := ⟨standing, []⟩

/-- What stands under a key. -/
def get? (t : Table) (key : String) : Option Item := t.entries.lookup key

/-- The table with a key set, in the place that the key has or at the end. -/
def set (t : Table) (key : String) (item : Item) : Table :=
  ⟨t.standing, Json.setMember key item t.entries⟩

/-- The table without a key. -/
def erase (t : Table) (key : String) : Table := ⟨t.standing, t.entries.filter (·.1 != key)⟩

/-- Changes the table at the end of a path. Tables that are missing on the way are made, with the
given standing; of a list of tables the last one is meant. A dotted key may not enter a table that
has a header. -/
def update? (made : Standing) (change : Table → Option Table) : List String → Table → Option Table
  | [], t => change t
  | key :: path, t =>
    match t.get? key with
    | none => (update? made change path (empty made)).map fun sub => t.set key (.table sub)
    | some (.value _) => none
    | some (.table sub) =>
      if made = .dotted ∧ sub.standing = .declared then none
      else (update? made change path sub).map fun sub => t.set key (.table sub)
    | some (.tables subs) =>
      match subs.getLast? with
      | none => none
      | some sub =>
        (update? made change path sub).map fun sub => t.set key (.tables (subs.dropLast ++ [sub]))

/-- Adds a value under a dotted key, given by the path to its last part and that part. -/
def addValue? (t : Table) (path : List String) (key : String) (value : Json) : Option Table :=
  t.update? .dotted (fun t =>
    if (!path.isEmpty && t.standing != .dotted) || (t.get? key).isSome then none
    else some (t.set key (.value value))) path

/-- Adds the table of a header. A table that other headers have implied becomes a declared one. -/
def addTable? (t : Table) (path : List String) (key : String) : Option Table :=
  t.update? .implied (fun t =>
    match t.get? key with
    | none => some (t.set key (.table (empty .declared)))
    | some (.table ⟨.implied, entries⟩) =>
      some ((t.erase key).set key (.table ⟨.declared, entries⟩))
    | _ => none) path

/-- Adds a table to the list of tables of a header. -/
def addToList? (t : Table) (path : List String) (key : String) : Option Table :=
  t.update? .implied (fun t =>
    match t.get? key with
    | none => some (t.set key (.tables [empty .declared]))
    | some (.tables subs) => some (t.set key (.tables (subs ++ [empty .declared])))
    | _ => none) path

end Table

mutual

/-- An item as a JSON value. -/
def Item.toJson : Item → Json
  | .value v => v
  | .table t => t.toJson
  | .tables ts => .array (tablesToJson ts)

/-- A table as a JSON object. -/
def Table.toJson : Table → Json
  | ⟨_, entries⟩ => .object (entriesToJson entries)

/-- Some tables as JSON values. -/
def tablesToJson : List Table → List Json
  | [] => []
  | t :: rest => t.toJson :: tablesToJson rest

/-- Some entries as the members of a JSON object. -/
def entriesToJson : List (String × Item) → List (String × Json)
  | [] => []
  | (key, item) :: rest => (key, item.toJson) :: entriesToJson rest

end

end TypedClient.Toml
