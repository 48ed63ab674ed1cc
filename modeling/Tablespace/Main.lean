import Tablespace.Command

/-! # Command line

The arguments name a command and its parts, as in `get --file t.ibd --schema t.json --key 1`. Rows
and reports go to the standard output, a failure to the standard error. -/

namespace Tablespace.CommandLine

/-- The values of an argument that may be given by two names. -/
def valuesOf (long short : String) : List String → List String
  | name :: value :: rest =>
    if name = long ∨ name = short then value :: valuesOf long short rest
    else valuesOf long short (value :: rest)
  | _ => []

/-- The value of an argument. -/
def valueOf? (long short : String) (arguments : List String) : Option String :=
  (valuesOf long short arguments).head?

/-- The command that the arguments name. -/
def command? : List String → Option Command
  | [] => none
  | name :: arguments => do
    let path ← valueOf? "--file" "-f" arguments
    let definition := valueOf? "--schema" "-s" arguments
    match name with
    | "info" => return .info path (← definition)
    | "page" =>
      let number ← valueOf? "--page" "-p" arguments
      return .page path (← Numeral.unsigned? Numeral.maxWord number.toList)
    | "get" => return .get path (← definition) (← valueOf? "--key" "-k" arguments)
    | "scan" =>
      return .scan path (← definition) (valuesOf "--where" "-w" arguments)
        (valueOf? "--columns" "--columns" arguments)
    | "range" =>
      return .range path (← definition) (valueOf? "--from" "--from" arguments)
        (valueOf? "--to" "--to" arguments) (valueOf? "--columns" "--columns" arguments)
    | _ => none

/-- The paths of the files that the arguments name. -/
def pathsOf (arguments : List String) : List String :=
  valuesOf "--file" "-f" arguments ++ valuesOf "--schema" "-s" arguments ++
    valuesOf "--config" "-c" arguments

/-- How the arguments are to be given. -/
def usage : String :=
  "usage: info|page|get|scan|range --file FILE [--schema FILE] [--config FILE] [--page N] " ++
    "[--key K] [--where COLUMN=VALUE] [--from K] [--to K] [--columns C]"

/-- The contents of a file, if it can be read. -/
def contents? (path : String) : IO (Option ByteArray) :=
  try
    let data ← IO.FS.readBinFile path
    return some data
  catch _ => return none

end Tablespace.CommandLine

open Tablespace Tablespace.CommandLine in
/-- Run the command that the arguments name. -/
def main (arguments : List String) : IO UInt32 := do
  match command? arguments with
  | none =>
    IO.eprintln usage
    return 2
  | some c =>
    let found ← (pathsOf arguments).mapM fun path => return (path, ← contents? path)
    let files : Files := fun path => (found.lookup path).join.map Buffer.ofByteArray
    let output := c.run files (valueOf? "--config" "-c" arguments)
    for line in output.rows do IO.print line
    match output.failure with
    | none => return 0
    | some e =>
      IO.eprintln ("Error: " ++ e.message)
      return 1
