import Restyler.Assoc
import Restyler.Toml.Reader

/-!
# TOML documents as defined

The keys that the statements of a document define. A document is kept flat: each full key has an
entry, and of an array of tables only the last table is kept, since later statements reach no other.
A key is defined once, with three exceptions. A table that was only implied by a longer key may be
named later. A key whose value was written as an array may be given another value. And an array of
tables takes a new table each time it is named.
-/

namespace Restyler.Toml

inductive Entry where
  | table
  | tables
  | leaf (value : Value)

structure Document where
  entries : List (Key × Entry)
  /-- Every key and header in the order of the text. -/
  listed : List Key
  /-- The keys whose value was last written as an array. -/
  arrays : List Key
  /-- The tables that no header has named so far. -/
  implied : List Key

def Value.isArray : Value → Bool
  | .array _ => true
  | _ => false

namespace Document

def empty : Document := ⟨[], [], [], []⟩

def get? (d : Document) (k : Key) : Option Entry := Assoc.get? k d.entries

/-- Sets the entry of a key; what was below the key is gone. -/
def put (d : Document) (k : Key) (e : Entry) : Document :=
  { d with entries := (d.entries.filter fun (k', _) => !k.isPrefixOf k') ++ [(k, e)] }

mutual
/-- Puts a value, the entries of an inline table below it. -/
def plant (k : Key) (d : Document) : Value → Document
  | .inline es => plantAll k (d.put k .table) es
  | v => d.put k (.leaf v)
def plantAll (k : Key) (d : Document) : Entries → Document
  | .nil => d
  | .cons key v rest => plantAll k (plant (k ++ [key.getLast?.getD []]) d v) rest
end

def list (d : Document) (k : Key) : Document := { d with listed := d.listed ++ [k] }

def imply (d : Document) (k : Key) : Document := { d with implied := k :: d.implied }

def name (d : Document) (k : Key) : Document := { d with implied := d.implied.filter (· ≠ k) }

/-- Notes whether a value was written as an array. Without a name the note is about the table
itself. -/
def typed (d : Document) (context : Key) (name : Bytes) (isArray : Bool) : Document :=
  let k := if name ≠ [] then context ++ [name] else if context = [] then [[]] else context
  let others := d.arrays.filter (· ≠ k)
  { d with arrays := if isArray then k :: others else others }

/-- The keys of the tables that a key is in, outermost first. -/
def parents (k : Key) : List Key := (List.range (k.length - 1)).map fun n => k.take (n + 1)

def isOpen (d : Document) (k : Key) : Bool :=
  match d.get? k with
  | some .table | some .tables => true
  | _ => false

/-- Gives a key its value, or names a table that was implied. -/
def define (d : Document) (k : Key) (v : Value) : Except TomlError Document :=
  if !(parents k).all d.isOpen then .error (.redefined k.text)
  else if (d.get? k).isNone then .ok (plant k d v)
  else if d.arrays.contains k then .ok (plant k (d.name k) v)
  else if d.implied.contains k then .ok (d.name k)
  else .error (.redefined k.text)

/-- Makes the tables that a key is in, as far as they are missing. -/
def makeParents (d : Document) (k : Key) : Except TomlError Document :=
  (parents k).foldlM (fun d p =>
    match d.get? p with
    | none => .ok ((d.imply p).put p .table)
    | some (.leaf _) => .error (.redefined p.text)
    | some _ => .ok d) d

/-- Opens a table, or a new table of an array of tables. -/
def openTable (d : Document) (k : Key) (inArray : Bool) : Except TomlError Document := do
  let d ← d.makeParents k
  if inArray then
    match d.get? k with
    | none | some .tables => .ok (d.put k .tables)
    | some _ => .error (.redefined k.text)
  else d.define k (.inline .nil)

/-- Opens the tables that the parts of a dotted key lead through. -/
def enter (d : Document) (context : Key) : List Bytes → Except TomlError Document
  | [] => .ok d
  | part :: parts => do
    let d ← (d.imply (context ++ [part])).openTable (context ++ [part]) false
    d.enter (context ++ [part]) parts

mutual
/-- Defines what is inside a value that is being assigned to a name. -/
def evaluate (context : Key) (name : Bytes) (inArray : Bool) :
    Value → Document → Except TomlError Document
  | .array vs, d => evaluateAll context name vs (d.typed context name true)
  | .inline es, d =>
    match (d.imply (context ++ [name])).openTable (context ++ [name]) inArray with
    | .ok d => assignAll (context ++ [name]) es d
    | .error e => .error e
  | _, d => .ok d
def evaluateAll (context : Key) (name : Bytes) : Values → Document → Except TomlError Document
  | .nil, d => .ok d
  | .cons v vs, d =>
    match evaluate context name true v d with
    | .ok d => evaluateAll context name vs d
    | .error e => .error e
def assignAll (context : Key) : Entries → Document → Except TomlError Document
  | .nil, d => .ok d
  | .cons key v rest, d =>
    let inner := context ++ key.dropLast
    let name := key.getLast?.getD []
    match d.enter context key.dropLast with
    | .error e => .error e
    | .ok d =>
      match evaluate inner name false v (d.list (inner ++ [name])) with
      | .error e => .error e
      | .ok d =>
        match d.define (inner ++ [name]) v with
        | .error e => .error e
        | .ok d => assignAll context rest (d.typed inner name v.isArray)
end

/-- The document so far and the table that the last header opened. -/
def step : Document × Key → Statement → Except TomlError (Document × Key)
  | (d, _), .table k => do return (((← d.openTable k false).typed k [] false).list k, k)
  | (d, _), .tables k => do return (((← d.openTable k true).typed k [] false).list k, k)
  | (d, context), .assign key v => do return (← assignAll context (.cons key v .nil) d, context)

def ofStatements (statements : List Statement) : Except TomlError Document := do
  let (d, _) ← statements.foldlM step (empty, [])
  return d

def read (s : Bytes) : Except TomlError Document :=
  match statements? s with
  | none => .error .malformed
  | some statements => ofStatements statements

end Document

end Restyler.Toml
