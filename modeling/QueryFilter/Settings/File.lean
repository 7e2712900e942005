/-
# The settings file

Settings are kept in a TOML file with a table for each concern:

    [compiler]
    max_depth = 32
    max_limit = 500

    [logging]
    level = "Info"
    format = "Text"

Either table may be missing and then has its default; a table that is there is
complete but for `max_limit`. Keys that are not known are passed over.

The integers of TOML are of 64 bits with a sign, so larger bounds cannot be
written. A file is its text, or nothing where there is no file; saving gives
the file that is there afterwards.

Key definitions: `Settings.ofTable?`, `Settings.write`, `Settings.load`,
`Settings.save`, `Settings.loadOrDefault`.
-/
import QueryFilter.Settings.Basic
import QueryFilter.Toml.Reader

namespace QueryFilter

/-! ### Reading -/

namespace Toml
namespace Item

/-- The fields of a record, given as a table or as a list in their order. -/
def fields? (names : List String) : Item → Option (List (Option Item))
  | .table _ entries => some (names.map fun name => Table.get? name entries)
  | .array items => some ((List.range names.length).map fun i => items[i]?)
  | .tables items =>
    some ((List.range names.length).map fun i => (items[i]?).map (Item.table .opened))
  | _ => none

/-- The unsigned integer that an item is. -/
def unsigned? : Item → Option UInt64
  | .integer n => if 0 ≤ n ∧ n < Int.pow 2 64 then some (UInt64.ofNat n.toNat) else none
  | _ => none

/-- Whether an item is an array or a table with nothing in it. -/
def isBare : Item → Bool
  | .array items => items.isEmpty
  | .table _ entries => entries.isEmpty
  | .tables items => items.isEmpty
  | _ => false

/-- The word of a choice: a string, or a table with nothing under the word. -/
def variant? : Item → Option String
  | .string s => some s
  | .table _ [(name, item)] => if item.isBare then some name else none
  | _ => none

end Item
end Toml

namespace CompilerSettings

/-- The bounds of an item. -/
def ofItem? (item : Toml.Item) : Option CompilerSettings :=
  match item.fields? ["max_depth", "max_limit"] with
  | some [some depth, limit] => do
    let depth ← depth.unsigned?
    let limit ← limit.elim (some none) fun limit => limit.unsigned?.map some
    some ⟨depth, limit⟩
  | _ => none

end CompilerSettings

namespace LoggingSettings

/-- The log settings of an item. -/
def ofItem? (item : Toml.Item) : Option LoggingSettings :=
  match item.fields? ["level", "format"] with
  | some [some level, some format] => do
    let level ← level.variant?.bind LogLevel.ofName?
    let format ← format.variant?.bind LogFormat.ofName?
    some ⟨level, format⟩
  | _ => none

end LoggingSettings

namespace Settings

/-- The settings of a TOML table. -/
def ofTable? (t : Toml.Table) : Option Settings := do
  let compiler ← (t.get? "compiler").elim (some .default) CompilerSettings.ofItem?
  let logging ← (t.get? "logging").elim (some .default) LoggingSettings.ofItem?
  some ⟨compiler, logging⟩

/-- The settings of a text, whether they are valid or not. -/
def parse (text : String) : Except SettingsError Settings :=
  match (Toml.parse? text).bind ofTable? with
  | some settings => .ok settings
  | none => .error .malformed

/-! ### Writing -/

/-- A line that binds a key to an integer, if TOML has it. -/
def integerLine (key : String) (n : UInt64) : Except SettingsError String :=
  if n.toNat < Nat.pow 2 63 then .ok (key ++ " = " ++ String.ofList (Nat.toDigits 10 n.toNat) ++ "\n")
  else .error .unwritable

/-- A line that binds a key to a word. -/
def wordLine (key word : String) : String := key ++ " = \"" ++ word ++ "\"\n"

/-- The text of settings. -/
def write (s : Settings) : Except SettingsError String := do
  let depth ← integerLine "max_depth" s.compiler.maxDepth
  let limit ← s.compiler.maxLimit.elim (.ok "") (integerLine "max_limit")
  .ok ("[compiler]\n" ++ depth ++ limit ++ "\n[logging]\n" ++
    wordLine "level" s.logging.level.name ++ wordLine "format" s.logging.format.name)

/-! ### Files -/

/-- The settings in a file. -/
def load : Option String → Except SettingsError Settings
  | none => .error .unreadable
  | some text => do
    let settings ← parse text
    settings.validate
    .ok settings

/-- The file with the settings in it. -/
def save (s : Settings) : Except SettingsError (Option String) := (write s).map some

/-- The settings in a file, and the file afterwards. Where there is no file,
the defaults are saved. -/
def loadOrDefault : Option String → Except SettingsError (Settings × Option String)
  | none => do
    let file ← save .default
    .ok (.default, file)
  | some text => do
    let settings ← load (some text)
    .ok (settings, some text)

end Settings
end QueryFilter
