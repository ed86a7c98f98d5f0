import ControlVoltage.Toml.Value

/-!
# Tables under construction

A document defines its tables piece by piece, by headers and by dotted keys, and each table only
once. While it is read, a table therefore remembers how it came to be.

* `Entry` : a finished value, a table that can still grow, or an array of such tables.
* `Fields.update` : goes down a path of keys and changes the table at its end.
* `openTable`, `openArrayItem`, `insert` : the three ways in which a line of the document changes
  the tables. Each is `none` when the document defines something twice.
-/

namespace ControlVoltage.Toml

/-- How a table came to be. -/
inductive TableKind where
  /-- Only passed through by the header of another table. -/
  | implicit
  /-- By a dotted key. -/
  | dotted
  /-- By its own header. -/
  | explicit
deriving DecidableEq, Repr

/-- What a key stands for while the document is read. -/
inductive Entry where
  /-- Finished: an inline table and a written-out array cannot grow. -/
  | value (v : Value)
  | table (kind : TableKind) (fields : List (String × Entry))
  /-- The items of an array of tables; the last one comes first. -/
  | tables (items : List (List (String × Entry)))
deriving Inhabited

abbrev Fields := List (String × Entry)

namespace Fields

/-- The fields with the entry of a key replaced, or with the key added last. -/
def put (key : String) (entry : Entry) : Fields → Fields
  | [] => [(key, entry)]
  | (k, e) :: rest => if k = key then (k, entry) :: rest else (k, e) :: put key entry rest

/-- Goes down a path and changes the table at its end. Tables on the way that do not exist yet are
made; `dotted` says that the path is a dotted key, which must not enter a table with a header. -/
def update (dotted : Bool) : (path : List String) →
    (change : TableKind → Fields → Option (TableKind × Fields)) → TableKind → Fields →
    Option (TableKind × Fields)
  | [], change, kind, fields => change kind fields
  | key :: path, change, kind, fields =>
    match fields.lookup key with
    | none => do
      let (childKind, child) ← update dotted path change (if dotted then .dotted else .implicit) []
      some (kind, put key (.table childKind child) fields)
    | some (.value _) => none
    | some (.tables []) => none
    | some (.tables (item :: items)) => do
      let (_, item) ← update dotted path change .explicit item
      some (kind, put key (.tables (item :: items)) fields)
    | some (.table childKind child) =>
      if dotted && childKind = .explicit then none
      else do
        let (childKind, child) ← update dotted path change childKind child
        some (kind, put key (.table childKind child) fields)

/-- Opens a table by its header; it may have been passed through before, but not opened. -/
def openTable (path : List String) (key : String) (root : Fields) : Option Fields :=
  (update false path (fun kind fields =>
    match fields.lookup key with
    | none => some (kind, put key (.table .explicit []) fields)
    | some (.table .implicit child) => some (kind, put key (.table .explicit child) fields)
    | some _ => none) .explicit root).map (·.2)

/-- Opens the next item of an array of tables by its header. -/
def openArrayItem (path : List String) (key : String) (root : Fields) : Option Fields :=
  (update false path (fun kind fields =>
    match fields.lookup key with
    | none => some (kind, put key (.tables [[]]) fields)
    | some (.tables items) => some (kind, put key (.tables ([] :: items)) fields)
    | some _ => none) .explicit root).map (·.2)

/-- Puts a value under a dotted key. The tables of its path are those of dotted keys only. -/
def insertDotted (path : List String) (key : String) (v : Value) (kind : TableKind)
    (fields : Fields) : Option (TableKind × Fields) :=
  update true path (fun kind fields =>
    if decide (kind = .dotted) == path.isEmpty then none
    else
      match fields.lookup key with
      | none => some (kind, put key (.value v) fields)
      | some _ => none) kind fields

/-- Puts a value under a dotted key of the table that was opened last. -/
def insert (opened : List String) (path : List String) (key : String) (v : Value) (root : Fields) :
    Option Fields :=
  (update false opened (insertDotted path key v) .explicit root).map (·.2)

end Fields

mutual

/-- The value of an entry when nothing more can be added. -/
def Entry.finish : Entry → Value
  | .value v => v
  | .table _ fields => .table (finishFields fields)
  | .tables items => .array (finishItems items).reverse

def finishFields : List (String × Entry) → List (String × Value)
  | [] => []
  | (key, entry) :: rest => (key, entry.finish) :: finishFields rest

def finishItems : List (List (String × Entry)) → List Value
  | [] => []
  | fields :: rest => .table (finishFields fields) :: finishItems rest

end

end ControlVoltage.Toml
