/-! # TOML documents

    A document is a table of values by key. Tables come about in three ways, which decide what may
    be added to them later: by a header of their own, by being on the path of another header, and by
    a dotted key. Inline tables are closed. These are the rules of the TOML specification; settings
    are read from documents, and no theorem depends on which texts are documents. -/

namespace CommandLine

/-- How a table came about. -/
inductive TableOrigin where
  /-- By a header of its own. -/
  | header
  /-- By being on the path of a header. -/
  | path
  /-- By a dotted key. -/
  | dotted
deriving DecidableEq, Repr

/-- A TOML value. Floats and dates are kept as they are written. -/
inductive Toml where
  | text (s : String)
  | integer (n : Int)
  | float (written : String)
  | truth (b : Bool)
  | moment (written : String)
  | array (items : List Toml)
  | inline (entries : List (String × Toml))
  | table (origin : TableOrigin) (entries : List (String × Toml))
  | tables (elements : List (List (String × Toml)))
deriving Inhabited

namespace Toml

/-- A table with its entries. -/
structure Table where
  origin : TableOrigin
  entries : List (String × Toml)

/-- The table as a value. -/
def Table.toValue (t : Table) : Toml :=
  .table t.origin t.entries

/-- The table with the value under a key replaced, or added at the end. -/
def Table.set (t : Table) (key : String) (value : Toml) : Table :=
  if (t.entries.lookup key).isSome then
    { t with entries := t.entries.map fun (k, v) => if k == key then (k, value) else (k, v) }
  else { t with entries := t.entries ++ [(key, value)] }

/-- Changes the table at the end of a path, creating the tables of the path that are missing. A
    dotted key does not enter tables that have a header. An array of tables is entered at its last
    element. -/
def Table.descend (isDotted : Bool) (change : Table → Option Table) :
    List String → Table → Option Table
  | [], t => change t
  | key :: rest, t =>
    match t.entries.lookup key with
    | none =>
      (descend isDotted change rest ⟨if isDotted then .dotted else .path, []⟩).map fun inner =>
        t.set key inner.toValue
    | some (.table origin entries) =>
      if isDotted && origin == .header then none
      else (descend isDotted change rest ⟨origin, entries⟩).map fun inner =>
        t.set key inner.toValue
    | some (.tables elements) =>
      match elements.getLast? with
      | none => none
      | some last =>
        if isDotted then none
        else (descend isDotted change rest ⟨.header, last⟩).map fun inner =>
          t.set key (.tables (elements.dropLast ++ [inner.entries]))
    | some _ => none

/-- Adds a value under a key that is free. -/
def Table.add (key : String) (value : Toml) (t : Table) : Option Table :=
  if (t.entries.lookup key).isSome then none else some (t.set key value)

/-- Adds a value under a dotted key. All tables that the key leads through are its own. -/
def Table.addDotted (path : List String) (value : Toml) (t : Table) : Option Table :=
  match path.getLast? with
  | none => none
  | some key =>
    if path.length = 1 then t.add key value
    else t.descend true
      (fun inner => if inner.origin == .dotted then inner.add key value else none) path.dropLast

/-- Opens the table of a header, which may be on the path of another header but is opened once. -/
def Table.openHeader (path : List String) (t : Table) : Option Table :=
  match path.getLast? with
  | none => none
  | some key =>
    t.descend false
      (fun parent => match parent.entries.lookup key with
        | none => some (parent.set key (.table .header []))
        | some (.table .path entries) => some (parent.set key (.table .header entries))
        | some _ => none)
      path.dropLast

/-- Opens a new element of an array of tables. -/
def Table.openElement (path : List String) (t : Table) : Option Table :=
  match path.getLast? with
  | none => none
  | some key =>
    t.descend false
      (fun parent => match parent.entries.lookup key with
        | none => some (parent.set key (.tables [[]]))
        | some (.tables elements) => some (parent.set key (.tables (elements ++ [[]])))
        | some _ => none)
      path.dropLast

end Toml

end CommandLine
