import Tablespace.Error
import Tablespace.Json.Field
import Tablespace.Json.Parser

/-! # Options

How strictly a tablespace is read and how its values are shown. Each option has a default, so that
a JSON text need only give those it changes.

* `Options.ofJson`: the options of a JSON text. -/

namespace Tablespace

/-- **The options of a reader.** -/
structure Options where
  /-- A file has to be a whole number of pages. -/
  validateFileSize : Bool
  /-- The checksum of every page that is loaded whole has to match. -/
  verifyChecksums : Bool
  /-- The records of a page have to be as many as its header says. -/
  strictRecordCount : Bool
  /-- Records that are marked as deleted are shown. -/
  includeDeleted : Bool
  /-- The root of the clustered index, searched for if it is not given. -/
  rootPage : Option Nat
  /-- How many pages of the dictionary the search for the root may pass. -/
  rootSearchLimit : Nat
  /-- The seconds that are added to a timestamp. -/
  timestampOffset : Int
  deriving DecidableEq

namespace Options

/-- The options that hold unless others are given. -/
def default : Options where
  validateFileSize := true
  verifyChecksums := false
  strictRecordCount := false
  includeDeleted := false
  rootPage := none
  rootSearchLimit := 3
  timestampOffset := 0

/-- The options that a JSON value gives. -/
def ofValue? (v : Json) : Option Options := do
  match ← v.fields? ["validate_file_size", "verify_checksums", "strict_record_count",
      "include_deleted", "root_page", "root_search_limit", "timestamp_offset_secs"] with
  | [validate, verify, strict, deleted, root, limit, offset] =>
    let d := default
    return {
      validateFileSize := ← Json.withDefault d.validateFileSize Json.bool? validate
      verifyChecksums := ← Json.withDefault d.verifyChecksums Json.bool? verify
      strictRecordCount := ← Json.withDefault d.strictRecordCount Json.bool? strict
      includeDeleted := ← Json.withDefault d.includeDeleted Json.bool? deleted
      rootPage := ← Json.withDefault d.rootPage (Json.orNull? (Json.unsigned? Numeral.maxWord)) root
      rootSearchLimit := ← Json.withDefault d.rootSearchLimit (Json.unsigned? Numeral.maxWord) limit
      timestampOffset := ← Json.withDefault d.timestampOffset (Json.signed? 32) offset }
  | _ => none

/-- **The options of a JSON text.** -/
def ofJson (text : String) : Except Error Options :=
  match (Json.parse? text).bind ofValue? with
  | some o => .ok o
  | none => .error (.format .options)

end Options
end Tablespace
