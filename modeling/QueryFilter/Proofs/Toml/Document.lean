/-
# Plain lines of TOML text

The lines that a program writes are plainer than TOML allows: a header of one name without
quotes, such a name with an equals sign between single spaces and a value, and blank lines.
Each of these is read as the statement that it is in front of all other text
(`Toml.IsLines.header`, `Toml.IsLines.assign`, `Toml.IsLines.blank`), so lines one after the
other are read as their statements (`Toml.IsLines.append`), and a document as all of them
(`Toml.IsLines.parse?_eq`).

Key definitions: `Toml.IsName`, `Toml.IsValue`, `Toml.IsLines`.
Key theorems: `Toml.isValue_toDigits`, `Toml.isValue_word`, `Toml.IsLines.header`,
`Toml.IsLines.assign`, `Toml.IsLines.append`, `Toml.IsLines.parse?_eq`.
-/
import QueryFilter.Proofs.Toml.Number

namespace QueryFilter
namespace Toml

variable {cs rest : List Char} {c : Char} {name value word text text' : String} {item : Item}
  {first : Statement} {statements statements' : List Statement}

/-! ### Names -/

/-- Whether a text is a name that stands without quotes. -/
structure IsName (name : String) : Prop where
  nonempty : name.toList ≠ []
  bare : ∀ c ∈ name.toList, isBare c = true

instance (name : String) : Decidable (IsName name) :=
  decidable_of_iff (name.toList ≠ [] ∧ name.toList.all isBare = true)
    ⟨fun h => ⟨h.1, List.all_eq_true.mp h.2⟩,
      fun h => ⟨h.nonempty, List.all_eq_true.mpr h.bare⟩⟩

theorem ne_of_isBare {d : Char} (hc : isBare c = true) (hd : isBare d = false) : c ≠ d := by
  rintro rfl
  rw [hc] at hd
  cases hd

/-- A name begins with a character that neither blanks, comments, brackets nor quotes have. -/
theorem IsName.exists_cons (h : IsName name) :
    ∃ c cs, name.toList = c :: cs ∧ isBare c = true := by
  cases hcons : name.toList with
  | nil => exact absurd hcons h.nonempty
  | cons c cs => exact ⟨c, cs, rfl, h.bare c (by rw [hcons]; exact List.mem_cons_self)⟩

theorem skipSpaces_of_ne (hspace : c ≠ ' ') (htab : c ≠ '\t') : skipSpaces (c :: cs) = c :: cs := by
  rw [skipSpaces, if_neg (by simp [hspace, htab])]

theorem readName_append (h : IsName name) (hc : isBare c = false) :
    readName (name.toList ++ c :: rest) = some (name, c :: rest) := by
  obtain ⟨d, ds, hname, hd⟩ := h.exists_cons
  have htake : (name.toList ++ c :: rest).takeWhile isBare = name.toList := by
    rw [List.takeWhile_append_of_pos h.bare, List.takeWhile_cons_of_neg (by simp [hc]),
      List.append_nil]
  have hdrop : (name.toList ++ c :: rest).dropWhile isBare = c :: rest := by
    rw [List.dropWhile_append_of_pos h.bare, List.dropWhile_cons_of_neg (by simp [hc])]
  unfold readName
  split
  · rename_i hquote
    rw [hname] at hquote
    exact absurd (List.cons.inj hquote).1 (ne_of_isBare hd (by decide))
  · rename_i hquote
    rw [hname] at hquote
    exact absurd (List.cons.inj hquote).1 (ne_of_isBare hd (by decide))
  · rw [htake, hdrop]
    split
    · rename_i hempty
      exact absurd hempty h.nonempty
    · rw [String.ofList_toList]

/-- A key of one name is read up to what follows it and the blanks behind it. -/
theorem readKey_append (h : IsName name) (hc : isBare c = false)
    (hpoint : ∀ cs, skipSpaces (c :: rest) ≠ '.' :: cs) :
    readKey (name.toList ++ c :: rest) = some ([name], skipSpaces (c :: rest)) := by
  obtain ⟨d, ds, hname, hd⟩ := h.exists_cons
  have hstart : skipSpaces (name.toList ++ c :: rest) = name.toList ++ c :: rest := by
    rw [hname, List.cons_append]
    exact skipSpaces_of_ne (ne_of_isBare hd (by decide)) (ne_of_isBare hd (by decide))
  rw [readKey, maxNames, readNames, hstart, readName_append h hc]
  simp only [Option.bind_eq_bind, Option.bind_some]

/-! ### Values -/

/-- Whether a text that ends its line is read as a value. -/
structure IsValue (value : String) (item : Item) : Prop where
  start : ∀ rest, skipSpaces (value.toList ++ '\n' :: rest) = value.toList ++ '\n' :: rest
  read : ∀ rest fuel levels, readValue (fuel + 1) levels (value.toList ++ '\n' :: rest) =
    some (item, '\n' :: rest)

/-- A text is read as a value if it begins with neither a blank nor a bracket. -/
theorem isValue_of_readPlain (hvalue : value.toList = c :: cs) (hc : c ∉ [' ', '\t', '[', '\x7b'])
    (h : ∀ rest, readPlain (value.toList ++ '\n' :: rest) = some (item, '\n' :: rest)) :
    IsValue value item := by
  simp only [List.mem_cons, List.not_mem_nil, or_false, not_or] at hc
  obtain ⟨hspace, htab, hbracket, hbrace⟩ := hc
  constructor
  · intro rest
    rw [hvalue, List.cons_append, skipSpaces_of_ne hspace htab]
  · intro rest fuel levels
    rw [← h rest, hvalue, List.cons_append]
    unfold readValue
    split
    · rename_i hopen
      exact absurd (List.cons.inj hopen).1 hbracket
    · rename_i hopen
      exact absurd (List.cons.inj hopen).1 hbrace
    · rename_i hopen
      exact absurd (List.cons.inj hopen).1 hbracket
    · rename_i hopen
      exact absurd (List.cons.inj hopen).1 hbrace
    · rfl

/-- An integer of 64 bits is a value. -/
theorem isValue_toDigits {n : Nat} (hn : n < Nat.pow 2 63) :
    IsValue (String.ofList (Nat.toDigits 10 n)) (.integer n) := by
  obtain ⟨d, ds, hds, hd⟩ := exists_toDigits n
  have hno : ∀ x ∈ [' ', '\t', '[', '\x7b'], ¬ x.isDigit = true :=
    List.any_eq_false.mp (by decide)
  have hcons : (String.ofList (Nat.toDigits 10 n)).toList = d :: ds := by
    rw [String.toList_ofList, hds]
  refine isValue_of_readPlain hcons (fun hmem => hno d hmem hd) fun rest => ?_
  rw [String.toList_ofList]
  exact readPlain_toDigits hn

/-- No character of a name without quotes is a control character. -/
theorem isPlain_of_isBare (h : isBare c = true) : isPlain c = true := by
  rw [← Char.ofNat_toNat c] at h
  by_contra hplain
  have hcontrol : c.toNat < 0x20 ∨ c.toNat = 0x7F := by
    simp only [isPlain, Bool.or_eq_true, Bool.and_eq_true, decide_eq_true_eq, not_or] at hplain
    omega
  have hno : ∀ n < 0x20, ¬ isBare (Char.ofNat n) = true := by decide
  obtain hlow | hdelete := hcontrol
  · exact hno c.toNat hlow h
  · rw [hdelete] at h
    exact absurd h (by decide)

theorem readBasic_append : ∀ {word : List Char}, (∀ c ∈ word, isBare c = true) →
    readBasic (word ++ '"' :: rest) = some (word, rest)
  | [], _ => by
    rw [List.nil_append]
    unfold readBasic
    rfl
  | c :: word, h => by
    obtain ⟨hc, hword⟩ := List.forall_mem_cons.mp h
    have hquote : c ≠ '"' := ne_of_isBare hc (by decide)
    have hescape : c ≠ '\\' := ne_of_isBare hc (by decide)
    rw [List.cons_append, readBasic, if_pos (isPlain_of_isBare hc), readBasic_append hword]
    · rfl
    · exact fun h => absurd h hquote
    · exact fun _ _ _ _ _ h => absurd h hescape
    · exact fun _ _ _ _ _ _ _ _ _ h => absurd h hescape
    · exact fun _ _ h => absurd h hescape

/-- A word in one pair of double quotes is read as a text. -/
theorem readText_append (h : IsName word) :
    readText ('"' :: (word.toList ++ '"' :: rest)) = some (word.toList, rest) := by
  have hbasic : readBasic (word.toList ++ '"' :: rest) = some (word.toList, rest) :=
    readBasic_append h.bare
  obtain ⟨c, cs, hword, hc⟩ := h.exists_cons
  rw [hword, List.cons_append] at hbasic ⊢
  rw [readText, hbasic]
  intro _ hquote
  exact absurd (List.cons.inj hquote).1 (ne_of_isBare hc (by decide))

/-- A word in double quotes is a value. -/
theorem isValue_word (h : IsName word) : IsValue ("\"" ++ word ++ "\"") (.string word) := by
  have hquoted : ("\"" ++ word ++ "\"").toList = '"' :: (word.toList ++ ['"']) := by simp
  refine isValue_of_readPlain hquoted (by decide) fun rest => ?_
  have htext : ("\"" ++ word ++ "\"").toList ++ '\n' :: rest =
      '"' :: (word.toList ++ '"' :: '\n' :: rest) := by
    rw [hquoted, List.cons_append, List.append_assoc, List.singleton_append]
  rw [htext, readPlain, readText_append h]
  · simp only [String.ofList_toList]
  · exact fun _ htrue => absurd (List.cons.inj htrue).1 (by decide)
  · exact fun _ hfalse => absurd (List.cons.inj hfalse).1 (by decide)

/-! ### Lines -/

/-- Whether a text is read as these statements, in all steps that there may be. -/
def Reads (cs : List Char) (statements : List Statement) : Prop :=
  ∀ fuel, cs.length < fuel → readStatements fuel cs = some statements

/-- Whether no blank, comment or end of a line begins with a character. -/
def Starts (c : Char) : Prop := c ∉ [' ', '\t', '#', '\n', '\r']

instance (c : Char) : Decidable (Starts c) := inferInstanceAs (Decidable (c ∉ _))

theorem starts_of_isBare (hc : isBare c = true) : Starts c := fun hmem => by
  have hno : ∀ d ∈ [' ', '\t', '#', '\n', '\r'], ¬ isBare d = true :=
    List.any_eq_false.mp (by decide)
  exact hno c hmem hc

theorem skipLines_of_starts (hc : Starts c) (fuel : Nat) : skipLines fuel (c :: cs) = c :: cs := by
  simp only [Starts, List.mem_cons, not_or] at hc
  obtain ⟨hspace, htab, hcomment, hfeed, hreturn, -⟩ := hc
  have hskip : skipComment (c :: cs) = c :: cs := by
    unfold skipComment
    split
    · rename_i h
      exact absurd (List.cons.inj h).1 hcomment
    · rfl
  have hline : newline? (c :: cs) = none := by
    unfold newline?
    split
    · rename_i h
      exact absurd (List.cons.inj h).1 hfeed
    · rename_i h
      exact absurd (List.cons.inj h).1 hreturn
    · rfl
  cases fuel with
  | zero => rfl
  | succ fuel =>
    rw [skipLines, skipSpaces_of_ne hspace htab, hskip, hline]

namespace Reads

theorem nil : Reads [] [] := by
  intro fuel hfuel
  cases fuel with
  | zero => cases hfuel
  | succ fuel => rfl

theorem blank (h : Reads cs statements) : Reads ('\n' :: cs) statements := by
  intro fuel hfuel
  cases fuel with
  | zero => cases hfuel
  | succ fuel =>
    rw [← h (fuel + 1) (Nat.lt_of_succ_lt hfuel)]
    rfl

theorem line (hc : Starts c) (hread : readStatement (c :: cs) = some (first, '\n' :: rest))
    (hlength : rest.length ≤ cs.length) (h : Reads rest statements) :
    Reads (c :: cs) (first :: statements) := by
  intro fuel hfuel
  cases fuel with
  | zero => cases hfuel
  | succ fuel =>
    have hrest : readStatements fuel rest = some statements :=
      h fuel (by rw [List.length_cons] at hfuel; omega)
    have hline : restOfLine? ('\n' :: rest) = some rest := rfl
    rw [readStatements, skipLines_of_starts hc]
    simp only [hread, Option.bind_eq_bind, Option.bind_some, hline, hrest]

end Reads

/-- Whether a text is read as these statements in front of all other text. -/
def IsLines (text : String) (statements : List Statement) : Prop :=
  ∀ rest more, Reads rest more → Reads (text.toList ++ rest) (statements ++ more)

namespace IsLines

theorem empty : IsLines "" [] := fun _ _ h => h

theorem blank : IsLines "\n" [] := fun _ _ h => h.blank

/-- Lines one after the other are read as their statements one after the other. -/
theorem append (h : IsLines text statements) (h' : IsLines text' statements') :
    IsLines (text ++ text') (statements ++ statements') := by
  intro rest more hmore
  rw [String.toList_append, List.append_assoc, List.append_assoc]
  exact h _ _ (h' _ _ hmore)

/-- **Headers.** A name in brackets opens a table. -/
theorem header (hname : IsName name) : IsLines ("[" ++ name ++ "]\n") [.header [name]] := by
  intro rest more hmore
  have hkey : readKey (name.toList ++ ']' :: '\n' :: rest) = some ([name], ']' :: '\n' :: rest) :=
    readKey_append hname (by decide) (by intro cs hpoint; cases hpoint)
  have htext : ("[" ++ name ++ "]\n").toList ++ rest =
      '[' :: (name.toList ++ ']' :: '\n' :: rest) := by
    simp
  obtain ⟨d, ds, hcons, hd⟩ := hname.exists_cons
  rw [htext, List.singleton_append]
  refine .line (by decide) ?_ (by simp; omega) hmore
  rw [readStatement, hkey]
  · rfl
  · rw [hcons]
    exact fun _ hbracket => absurd (List.cons.inj hbracket).1 (ne_of_isBare hd (by decide))

/-- **Assignments.** A name, an equals sign and a value bind the name. -/
theorem assign (hname : IsName name) (hvalue : IsValue value item) :
    IsLines (name ++ " = " ++ value ++ "\n") [.assign [name] item] := by
  intro rest more hmore
  have hkey : readKey (name.toList ++ ' ' :: '=' :: ' ' :: (value.toList ++ '\n' :: rest)) =
      some ([name], '=' :: ' ' :: (value.toList ++ '\n' :: rest)) :=
    readKey_append hname (by decide) (by intro cs hpoint; cases hpoint)
  have hspaces : skipSpaces (' ' :: (value.toList ++ '\n' :: rest)) =
      value.toList ++ '\n' :: rest := hvalue.start rest
  have htext : (name ++ " = " ++ value ++ "\n").toList ++ rest =
      name.toList ++ ' ' :: '=' :: ' ' :: (value.toList ++ '\n' :: rest) := by
    simp
  obtain ⟨d, ds, hcons, hd⟩ := hname.exists_cons
  rw [htext, List.singleton_append]
  rw [hcons, List.cons_append] at hkey ⊢
  refine .line (starts_of_isBare hd) ?_ (by simp; omega) hmore
  rw [readStatement, hkey]
  · simp only [Option.bind_eq_bind, Option.bind_some, hspaces, hvalue.read]
  · exact fun _ hbracket => absurd (List.cons.inj hbracket).1 (ne_of_isBare hd (by decide))
  · exact fun _ hbracket => absurd (List.cons.inj hbracket).1 (ne_of_isBare hd (by decide))

/-- **Documents.** A text of lines is the table that their statements make up. -/
theorem parse?_eq (h : IsLines text statements) (hmark : text.toList.head? ≠ some '\uFEFF') :
    parse? text = Table.ofStatements? statements := by
  have hall : Reads text.toList statements := by
    have hlines := h [] [] .nil
    rwa [List.append_nil, List.append_nil] at hlines
  unfold parse?
  split
  · rename_i hcons
    rw [hcons] at hmark
    exact absurd rfl hmark
  · simp only [hall _ (Nat.lt_succ_self _), Option.bind_some]

end IsLines
end Toml
end QueryFilter
