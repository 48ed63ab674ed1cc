import Tablespace.Report.Row
import Tablespace.Report.Structure
import Tablespace.Table.Definition
import Tablespace.Tree.Range
import Tablespace.Value.Literal

/-! # Commands

A command reads the files that it names and writes lines of output, up to a failure.

* `Command`: the commands. `Command.run`: their output.
* `Table.keyOf`, `Table.columnsOf`, `Table.filterOf`: keys, columns and filters given as text. -/

namespace Tablespace

/-! ### Arguments -/

/-- The texts between commas, without the blanks around them. -/
def commaParts (text : String) : List (List Char) := (text.toList.splitOn ',').map Text.trim

namespace Table

/-- The place of a column that has to be there. -/
def columnOf (t : Table) (name : String) : Except Error Nat :=
  match t.columnIndex? name with
  | some i => .ok i
  | none => .error (.argument (.unknownColumn name))

/-- The value of a literal for the column of a name. -/
def literalOf (t : Table) (name text : String) : Except Error Value :=
  match t.column? name with
  | some c => c.literal text
  | none => .error (.argument (.unknownColumn name))

/-- **The key that a text gives**: values between commas, or a row id for a table without a primary
key. -/
def keyOf (t : Table) (text : String) : Except Error Key :=
  let parts := commaParts text
  if t.primaryKey = [] then
    match parts with
    | [id] =>
      match Numeral.unsigned? Numeral.maxLong id with
      | some n => .ok [.uint n]
      | none => .error (.argument (.rowId (String.ofList id)))
    | _ => .error (.argument .singleRowId)
  else if t.primaryKey.length < parts.length then
    .error (.argument (.keyValues parts.length t.primaryKey.length))
  else (parts.zip t.primaryKey).mapM fun m => t.literalOf m.2 (String.ofList m.1)

/-- **The columns that a text gives**: names between commas. -/
def columnsOf (t : Table) (text : String) : Except Error (List Nat) :=
  (commaParts text).mapM fun name => t.columnOf (String.ofList name)

/-- **The filter that a text gives**: a column, an equals sign and a value. -/
def filterOf (t : Table) (text : String) : Except Error (Nat × Value) :=
  match text.toList.dropWhile (· ≠ '=') with
  | [] => .error (.argument (.filter text))
  | _ :: value => do
    let name := text.toList.takeWhile (· ≠ '=')
    let trimmed := String.ofList (Text.trim name)
    match t.columnIndex? trimmed with
    | none => .error (.argument (.unknownColumn (String.ofList name)))
    | some i => return (i, ← t.literalOf trimmed (String.ofList value))

end Table

/-- A result for an argument, if it is given. -/
def optionally (f : α → Except Error β) : Option α → Except Error (Option β)
  | none => .ok none
  | some a => some <$> f a

/-- Whether the columns of some filters have their values. -/
def Record.passes (filters : List (Nat × Value)) (r : Record) : Bool :=
  filters.all fun f => match r.value? f.1 with
    | some v => v.compare f.2 = .eq
    | none => false

/-! ### Files -/

/-- The contents of the files that there are, by their paths. -/
abbrev Files : Type := String → Option Buffer

namespace Files

/-- The text of a file. -/
def text (files : Files) (path : String) : Except Error String :=
  match files path with
  | none => .error (.file (.cannotRead path))
  | some data =>
    let bytes := data.toList
    let s := Utf8.decode bytes
    if Utf8.encode s = bytes then .ok s else .error (.file (.notText path))

/-- The options of a file, or those that hold by default. -/
def options (files : Files) (path : Option String) : Except Error Options :=
  match path with
  | none => .ok .default
  | some path => do Options.ofJson (← files.text path)

/-- The image of a file. -/
def image (files : Files) (o : Options) (path : String) : Except Error Image :=
  match files path with
  | none => .error (.file (.cannotOpen path))
  | some data => Image.ofBuffer o data

/-- The reader of a table that one file defines and another holds. -/
def reader (files : Files) (o : Options) (path definition : String) : Except Error Reader := do
  let t ← Table.ofJson (← files.text definition)
  let i ← files.image o path
  Reader.of i t o

end Files

/-! ### Commands -/

/-- **A command.** -/
inductive Command
  | info (path definition : String)
  | page (path : String) (number : Nat)
  | get (path definition key : String)
  | scan (path definition : String) (filters : List String) (columns : Option String)
  | range (path definition : String) (lower upper columns : Option String)

namespace Command

/-- The number of pages, the root and the fill of a table. -/
def infoReport (path : String) (r : Reader) : Except Error Json := do
  let root ← r.pageFill r.root
  let fill ← r.fillStats
  return .record [
    ("file", .text path),
    ("table", .text r.table.name),
    ("pages", .nat r.pageCount),
    ("root_page", .nat r.root),
    ("index_id", .nat r.indexId),
    ("root_level", .nat root.level),
    ("fill", fill.toJson)]

/-- A report on lines of its own. -/
def reportLines (v : Json) : Run Error String := .done [v.pretty ++ "\n"]

/-- The line of a record with some of its columns, or whole. -/
def projectedLine (t : Table) (columns : Option (List Nat)) (rec : Record) :
    Except Error String := do
  let rec ← match columns with
    | none => .ok rec
    | some cs => rec.project cs
  return Row.line t columns rec

/-- The lines of a run of records. -/
def rowLines (t : Table) (columns : Option (List Nat)) (run : Run Error Record) :
    Run Error String :=
  let lines : Run Error String :=
    .concat (fun rec => .ofExcept (projectedLine t columns rec) fun s => .done [s]) run.rows
  lines.andThen ⟨[], run.failure⟩

/-- The lines of a command. -/
def lines (files : Files) (o : Options) : Command → Run Error String
  | .info path definition =>
    .ofExcept (files.reader o path definition) fun r =>
      .ofExcept (infoReport path r) reportLines
  | .page path number =>
    .ofExcept (files.image o path) fun i =>
      .ofExcept (i.load number) fun p =>
        .ofExcept p.decode fun body => reportLines (pageReport p body)
  | .get path definition key =>
    .ofExcept (files.reader o path definition) fun r =>
      .ofExcept (r.table.keyOf key) fun key =>
        .ofExcept (r.get key) fun found => .done (found.toList.map (Row.line r.table none))
  | .scan path definition filters columns =>
    .ofExcept (files.reader o path definition) fun r =>
      .ofExcept (filters.mapM r.table.filterOf) fun filters =>
        .ofExcept (optionally r.table.columnsOf columns) fun columns =>
          .ofExcept (r.select (Record.passes filters) columns) fun rows =>
            .done (rows.map (Row.line r.table columns))
  | .range path definition lower upper columns =>
    .ofExcept (files.reader o path definition) fun r =>
      .ofExcept (optionally r.table.keyOf lower) fun lower =>
        .ofExcept (optionally r.table.keyOf upper) fun upper =>
          .ofExcept (optionally r.table.columnsOf columns) fun columns =>
            rowLines r.table columns (r.rangeRun lower upper)

/-- **The lines of a command** under the options of a file, if one is named. -/
def run (files : Files) (options : Option String) (c : Command) : Run Error String :=
  .ofExcept (files.options options) fun o => c.lines files o

end Command
end Tablespace
