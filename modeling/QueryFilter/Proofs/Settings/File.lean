/-
# Settings come back from their file

The integers of TOML are of 64 bits with a sign, so a file holds settings whose bounds are
below 2⁶³ (`Settings.Fits`). Exactly these are written (`Settings.exists_write_of_fits`,
`Settings.write_of_not_fits`), and what is written is read as the settings that it was written
from (`Settings.parse_of_write`). Settings that are not valid are written as well, but refused
when they are loaded: loading what was saved is validating it (`Settings.load_of_save`).

Key definitions: `Settings.Fits`, `Settings.tables`.
Key theorems: `Settings.parse_of_write`, `Settings.load_of_save`, `Settings.save_load`,
`Settings.loadOrDefault_again`.
-/
import QueryFilter.Error
import QueryFilter.Proofs.Toml.Document
import QueryFilter.Proofs.Toml.Table
import QueryFilter.Settings.File

namespace QueryFilter
namespace Settings

open Toml

variable {s : Settings} {key word text line : String} {n : UInt64}
  {file after : Option String}

/-! ### Bounds that a file holds -/

/-- Whether the integers of TOML hold the bounds. -/
structure Fits (s : Settings) : Prop where
  depth : s.compiler.maxDepth.toNat < Nat.pow 2 63
  limit : ∀ n, s.compiler.maxLimit = some n → n.toNat < Nat.pow 2 63

theorem integerLine_of_lt (hn : n.toNat < Nat.pow 2 63) : integerLine key n =
    .ok (key ++ " = " ++ String.ofList (Nat.toDigits 10 n.toNat) ++ "\n") := if_pos hn

theorem integerLine_of_le (hn : Nat.pow 2 63 ≤ n.toNat) : integerLine key n = .error .unwritable :=
  if_neg (Nat.not_lt.mpr hn)

theorem eq_of_integerLine (h : integerLine key n = .ok line) :
    n.toNat < Nat.pow 2 63 ∧
      line = key ++ " = " ++ String.ofList (Nat.toDigits 10 n.toNat) ++ "\n" := by
  rcases Nat.lt_or_ge n.toNat (Nat.pow 2 63) with hn | hn
  · rw [integerLine_of_lt hn] at h
    exact ⟨hn, (Except.ok.inj h).symm⟩
  · rw [integerLine_of_le hn] at h
    cases h

/-- What is written, if anything is. -/
theorem eq_of_write (h : s.write = .ok text) : ∃ depth limit,
    integerLine "max_depth" s.compiler.maxDepth = .ok depth ∧
    s.compiler.maxLimit.elim (.ok "") (integerLine "max_limit") = .ok limit ∧
    text = "[compiler]\n" ++ depth ++ limit ++ "\n[logging]\n" ++
      wordLine "level" s.logging.level.name ++ wordLine "format" s.logging.format.name := by
  rw [write] at h
  obtain ⟨depth, hdepth, h⟩ := Except.bind_eq_ok.mp h
  obtain ⟨limit, hlimit, h⟩ := Except.bind_eq_ok.mp h
  exact ⟨depth, limit, hdepth, hlimit, (Except.ok.inj h).symm⟩

/-- Settings that a file holds are written. -/
theorem exists_write_of_fits (h : s.Fits) : ∃ text, s.write = .ok text := by
  cases hlimit : s.compiler.maxLimit with
  | none =>
    rw [write, integerLine_of_lt h.depth, hlimit]
    exact ⟨_, rfl⟩
  | some n =>
    rw [write, integerLine_of_lt h.depth, hlimit, Option.elim_some,
      integerLine_of_lt (h.limit n hlimit)]
    exact ⟨_, rfl⟩

/-- Settings that a file does not hold are refused. -/
theorem write_of_not_fits (h : ¬ s.Fits) : s.write = .error .unwritable := by
  rcases Nat.lt_or_ge s.compiler.maxDepth.toNat (Nat.pow 2 63) with hdepth | hdepth
  · cases hlimit : s.compiler.maxLimit with
    | none =>
      exact absurd ⟨hdepth, fun n hn => by rw [hlimit] at hn; cases hn⟩ h
    | some n =>
      have hn : Nat.pow 2 63 ≤ n.toNat := Nat.not_lt.mp fun hlt =>
        h ⟨hdepth, fun m hm => by rw [hlimit] at hm; cases hm; exact hlt⟩
      rw [write, integerLine_of_lt hdepth, hlimit, Option.elim_some, integerLine_of_le hn]
      rfl
  · rw [write, integerLine_of_le hdepth]
    rfl

/-! ### Lines -/

theorem isLines_integerLine (hkey : IsName key) (h : integerLine key n = .ok line) :
    IsLines line [.assign [key] (.integer n.toNat)] := by
  obtain ⟨hn, rfl⟩ := eq_of_integerLine h
  exact .assign hkey (isValue_toDigits hn)

theorem isLines_wordLine (hkey : IsName key) (hword : IsName word) :
    IsLines (wordLine key word) [.assign [key] (.string word)] := by
  have hquotes : wordLine key word = key ++ " = " ++ ("\"" ++ word ++ "\"") ++ "\n" := by
    rw [wordLine, ← String.toList_inj]
    simp
  rw [hquotes]
  exact .assign hkey (isValue_word hword)

theorem isName_level (level : LogLevel) : IsName level.name := by
  cases level <;> decide

theorem isName_format (format : LogFormat) : IsName format.name := by
  cases format <;> decide

/-! ### Tables -/

/-- The table of the bounds. -/
def compilerTable (c : CompilerSettings) : Table :=
  ("max_depth", .integer c.maxDepth.toNat) ::
    c.maxLimit.elim [] fun limit => [("max_limit", .integer limit.toNat)]

/-- The table of the log. -/
def loggingTable (l : LoggingSettings) : Table :=
  [("level", .string l.level.name), ("format", .string l.format.name)]

/-- The tables of settings in their file. -/
def tables (s : Settings) : List (String × Table) :=
  [("compiler", compilerTable s.compiler), ("logging", loggingTable s.logging)]

theorem nodup_compilerTable (c : CompilerSettings) : ((compilerTable c).map Prod.fst).Nodup := by
  obtain ⟨depth, _ | limit⟩ := c
  · exact (by decide : ["max_depth"].Nodup)
  · exact (by decide : ["max_depth", "max_limit"].Nodup)

theorem nodup_loggingTable (l : LoggingSettings) : ((loggingTable l).map Prod.fst).Nodup :=
  (by decide : ["level", "format"].Nodup)

theorem unsigned?_integer (n : UInt64) : (Item.integer n.toNat).unsigned? = some n := by
  have hpow : Int.pow 2 64 = 18446744073709551616 := rfl
  have hn : n.toNat < 2 ^ 64 := n.toNat_lt
  rw [Item.unsigned?, hpow, if_pos (by omega), Int.toNat_natCast, UInt64.ofNat_toNat]

/-- The bounds are read field by field. -/
theorem ofItem?_of_fields {item depth : Item} {limit : Option Item} {c : CompilerSettings}
    (hfields : item.fields? ["max_depth", "max_limit"] = some [some depth, limit])
    (hdepth : depth.unsigned? = some c.maxDepth)
    (hlimit : limit.map Item.unsigned? = c.maxLimit.map some) :
    CompilerSettings.ofItem? item = some c := by
  obtain ⟨_, maxLimit⟩ := c
  rw [CompilerSettings.ofItem?, hfields]
  cases limit with
  | none =>
    cases maxLimit with
    | none => simp only [hdepth, Option.elim_none, Option.bind_eq_bind, Option.bind_some]
    | some n => cases hlimit
  | some limit =>
    cases maxLimit with
    | none => cases hlimit
    | some n =>
      have hn : limit.unsigned? = some n := Option.some.inj hlimit
      simp only [hdepth, hn, Option.elim_some, Option.map_some, Option.bind_eq_bind,
        Option.bind_some]

theorem ofItem?_compilerTable (c : CompilerSettings) :
    CompilerSettings.ofItem? (.table .opened (compilerTable c)) = some c := by
  have hfields : (Item.table .opened (compilerTable c)).fields? ["max_depth", "max_limit"] =
      some [some (.integer c.maxDepth.toNat), c.maxLimit.map fun n => .integer n.toNat] := by
    obtain ⟨_, _ | _⟩ := c <;> rfl
  refine ofItem?_of_fields hfields (unsigned?_integer c.maxDepth) ?_
  simp only [Option.map_map, Function.comp_def, unsigned?_integer]

theorem ofItem?_loggingTable (l : LoggingSettings) :
    LoggingSettings.ofItem? (.table .opened (loggingTable l)) = some l := by
  have hfields : (Item.table .opened (loggingTable l)).fields? ["level", "format"] =
      some [some (.string l.level.name), some (.string l.format.name)] := rfl
  rw [LoggingSettings.ofItem?, hfields]
  simp only [Item.variant?, LogLevel.ofName?_name, LogFormat.ofName?_name, Option.bind_eq_bind,
    Option.bind_some]

/-- Settings are read table by table. -/
theorem ofTable?_of_get? {t : Table} {compiler logging : Item}
    (hcompiler : t.get? "compiler" = some compiler)
    (hcompiler' : CompilerSettings.ofItem? compiler = some s.compiler)
    (hlogging : t.get? "logging" = some logging)
    (hlogging' : LoggingSettings.ofItem? logging = some s.logging) : ofTable? t = some s := by
  rw [ofTable?, hcompiler, hlogging]
  simp only [Option.elim_some, hcompiler', hlogging', Option.bind_eq_bind, Option.bind_some]

/-- The tables of settings are read as these settings. -/
theorem ofTable?_tables (s : Settings) :
    (Table.ofStatements? (Table.document s.tables)).bind ofTable? = some s := by
  have hnames : (s.tables.map Prod.fst).Nodup := (by decide : ["compiler", "logging"].Nodup)
  have hkeys : ∀ table ∈ s.tables, (table.2.map Prod.fst).Nodup := by
    rw [tables, List.forall_mem_cons, List.forall_mem_singleton]
    exact ⟨nodup_compilerTable s.compiler, nodup_loggingTable s.logging⟩
  rw [Table.ofStatements?_document hnames hkeys, Option.bind_some]
  exact ofTable?_of_get? rfl (ofItem?_compilerTable s.compiler) rfl
    (ofItem?_loggingTable s.logging)

/-! ### Files -/

theorem isLines_write (h : s.write = .ok text) : IsLines text (Table.document s.tables) := by
  obtain ⟨depth, limit, hdepth, hlimit, rfl⟩ := eq_of_write h
  have hcompiler := IsLines.header (by decide : IsName "compiler")
  have hlogging := IsLines.blank.append (.header (by decide : IsName "logging"))
  have hmaxDepth := isLines_integerLine (by decide : IsName "max_depth") hdepth
  have hlevel := isLines_wordLine (by decide : IsName "level") (isName_level s.logging.level)
  have hformat := isLines_wordLine (by decide : IsName "format") (isName_format s.logging.format)
  have htop : "[compiler]\n" = "[" ++ "compiler" ++ "]\n" := rfl
  have hbelow : "\n[logging]\n" = "\n" ++ ("[" ++ "logging" ++ "]\n") := rfl
  rw [htop, hbelow]
  obtain ⟨⟨maxDepth, maxLimit⟩, logging⟩ := s
  cases maxLimit with
  | none =>
    obtain rfl : limit = "" := (Except.ok.inj hlimit).symm
    exact ((((hcompiler.append hmaxDepth).append .empty).append hlogging).append hlevel).append
      hformat
  | some n =>
    have hmaxLimit := isLines_integerLine (by decide : IsName "max_limit") hlimit
    exact ((((hcompiler.append hmaxDepth).append hmaxLimit).append hlogging).append hlevel).append
      hformat

/-- **Writing and reading.** What is written is read as the settings that were written. -/
theorem parse_of_write (h : s.write = .ok text) : parse text = .ok s := by
  have hmark : text.toList.head? ≠ some '\uFEFF' := by
    obtain ⟨depth, limit, -, -, rfl⟩ := eq_of_write h
    simp
  rw [parse, (isLines_write h).parse?_eq hmark, ofTable?_tables]

/-- Loading settings that have been saved is validating them. -/
theorem load_of_save (h : s.save = .ok file) : load file = s.validate.map fun _ => s := by
  obtain ⟨text, hwrite, rfl⟩ := Except.map_eq_ok.mp h
  rw [load, parse_of_write hwrite]
  change (s.validate.bind fun _ => .ok s) = s.validate.map fun _ => s
  cases s.validate <;> rfl

/-- **Saving and loading.** Valid settings whose bounds are integers of TOML can be saved, and
loading the file gives these settings; other settings cannot be saved. -/
theorem save_load (hvalid : s.validate = .ok ()) :
    (s.Fits → ∃ file, s.save = .ok file ∧ load file = .ok s) ∧
      (¬ s.Fits → s.save = .error .unwritable) := by
  constructor
  · intro hfits
    obtain ⟨text, hwrite⟩ := exists_write_of_fits hfits
    have hsave : s.save = .ok (some text) := by rw [save, hwrite]; rfl
    refine ⟨some text, hsave, ?_⟩
    rw [load_of_save hsave, hvalid]
    rfl
  · intro hfits
    rw [save, write_of_not_fits hfits]
    rfl

/-- The largest bounds that a file holds. -/
def largest : Settings := ⟨⟨9223372036854775807, some 9223372036854775807⟩, .default⟩

/-- The least depth that no file holds. -/
def tooDeep : Settings := ⟨⟨9223372036854775808, none⟩, .default⟩

theorem not_fits_tooDeep : ¬ tooDeep.Fits := fun hfits => absurd hfits.depth (by decide)

theorem save_load_largest :
    (largest.validate = .ok () ∧ ∃ file, largest.save = .ok file ∧ load file = .ok largest) ∧
      tooDeep.validate = .ok () ∧ tooDeep.save = .error .unwritable :=
  ⟨⟨by decide, (save_load (by decide)).1 ⟨by decide, by rintro n ⟨⟩; decide⟩⟩,
    by decide, (save_load (by decide)).2 not_fits_tooDeep⟩

/-- Not all valid settings can be saved. -/
theorem not_all_saved :
    ¬ ∀ s : Settings, s.validate = .ok () → ∃ file, s.save = .ok file ∧ load file = .ok s := by
  intro hall
  obtain ⟨file, hsave, -⟩ := hall tooDeep (by decide)
  rw [save, write_of_not_fits not_fits_tooDeep] at hsave
  cases hsave

/-- Settings that have been loaded, or saved because there were none, are loaded again. -/
theorem loadOrDefault_again (h : loadOrDefault file = .ok (s, after)) :
    loadOrDefault after = .ok (s, after) := by
  cases file with
  | none =>
    rw [loadOrDefault] at h
    obtain ⟨saved, hsave, h⟩ := Except.bind_eq_ok.mp h
    cases h
    have hload : load after = .ok .default := load_of_save hsave
    cases after with
    | none => cases hload
    | some text =>
      rw [loadOrDefault, hload]
      rfl
  | some text =>
    have hrun := h
    rw [loadOrDefault] at hrun
    obtain ⟨loaded, -, hrun⟩ := Except.bind_eq_ok.mp hrun
    cases hrun
    exact h

end Settings
end QueryFilter
