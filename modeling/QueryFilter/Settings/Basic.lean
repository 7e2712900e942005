/-
# Settings

What the engine is configured with: the bounds of the compiler, which limit
what a caller may ask for, and how the program that runs it writes its log. A
bound of zero would refuse everything and is not valid.

Key definitions: `CompilerSettings`, `LoggingSettings`, `Settings`,
`Settings.validate`.
-/

namespace QueryFilter

/-- The bounds of the compiler. -/
structure CompilerSettings where
  /-- The most levels of an input. -/
  maxDepth : UInt64
  /-- The largest limit, if there is one. -/
  maxLimit : Option UInt64
  deriving DecidableEq, Repr

namespace CompilerSettings

/-- Thirty-two levels and any limit. -/
def default : CompilerSettings := ⟨32, none⟩

end CompilerSettings

/-- How much is written to the log. -/
inductive LogLevel where
  | error
  | warn
  | info
  | debug
  | trace
  deriving DecidableEq, Repr

namespace LogLevel

/-- The word for a level in a settings file. -/
def name : LogLevel → String
  | .error => "Error"
  | .warn => "Warn"
  | .info => "Info"
  | .debug => "Debug"
  | .trace => "Trace"

/-- The word for a level in a log filter. -/
def directive : LogLevel → String
  | .error => "error"
  | .warn => "warn"
  | .info => "info"
  | .debug => "debug"
  | .trace => "trace"

def all : List LogLevel := [.error, .warn, .info, .debug, .trace]

/-- The level of a word in a settings file. -/
def ofName? (s : String) : Option LogLevel := all.find? fun level => level.name = s

theorem ofName?_name (level : LogLevel) : ofName? level.name = some level := by
  cases level <;> decide

end LogLevel

/-- The form of the lines of the log. -/
inductive LogFormat where
  | text
  | json
  deriving DecidableEq, Repr

namespace LogFormat

/-- The word for a form in a settings file. -/
def name : LogFormat → String
  | .text => "Text"
  | .json => "Json"

/-- The form of a word in a settings file. -/
def ofName? (s : String) : Option LogFormat :=
  [LogFormat.text, .json].find? fun format => format.name = s

theorem ofName?_name (format : LogFormat) : ofName? format.name = some format := by
  cases format <;> decide

end LogFormat

/-- How the log is written. -/
structure LoggingSettings where
  level : LogLevel
  format : LogFormat
  deriving DecidableEq, Repr

namespace LoggingSettings

def default : LoggingSettings := ⟨.info, .text⟩

end LoggingSettings

/-- The settings of the engine. -/
structure Settings where
  compiler : CompilerSettings
  logging : LoggingSettings
  deriving DecidableEq, Repr

/-- Why settings cannot be read, written or used. -/
inductive SettingsError where
  /-- There is no file. -/
  | unreadable
  /-- The file is no TOML, or does not hold settings. -/
  | malformed
  /-- A setting is too large for the file. -/
  | unwritable
  | zeroDepth
  | zeroLimit
  deriving DecidableEq, Repr

namespace SettingsError

/-- What is wrong with the settings themselves, in words. -/
def message : SettingsError → String
  | .zeroDepth => "Compiler max depth cannot be 0"
  | .zeroLimit => "Compiler max limit cannot be 0"
  | .unreadable => "Failed to read config file"
  | .malformed => "Failed to parse config file"
  | .unwritable => "Failed to serialize configuration"

end SettingsError

namespace Settings

def default : Settings := ⟨.default, .default⟩

/-- Refuses bounds of zero. -/
def validate (s : Settings) : Except SettingsError Unit :=
  if s.compiler.maxDepth = 0 then .error .zeroDepth
  else if s.compiler.maxLimit = some 0 then .error .zeroLimit
  else .ok ()

end Settings
end QueryFilter
