import OxideLake.Arrow.Types
import OxideLake.Core.Params
import OxideLake.Foundations.Quoting

/-!
# Names between quotes

Names that a user chooses stand between quotes in two texts.  `to_prometheus` writes the name of an
operator as a label, with a backslash before every character that would end it (`escape_label`);
`profile_table` writes the names of a table and its columns as SQL identifiers, every quote doubled.

`names_stay_quoted` says that no name gets out of its quotes, whatever stands around them.
-/

namespace OxideLake

open List Quoting

/-! ## The two texts -/

def escapeLabel (value : String) : String := String.ofList (backslashed value.toList)

/-- A sample of an operator metric, as `to_prometheus` writes it. -/
def operatorLine (metric operator : String) (backend : BackendKind) (value : UInt64) : String :=
  metric ++ "\x7boperator=\"" ++ escapeLabel operator ++ "\",backend=\"" ++ backend.asStr ++
    "\"\x7d " ++ toString value.toNat ++ "\n"

namespace Profile

/-- A quoted identifier. -/
def quoted (name : String) : List Char := '"' :: (doubled name.toList ++ ['"'])

/-- The columns with quantiles. -/
def numeric (field : Field) : Bool := field.dataType = .int64 ∨ field.dataType = .float64

/-- The columns with a minimum and a maximum. -/
def orderable (field : Field) : Bool := numeric field ∨ field.dataType = .utf8

/-- The expressions of one column in the select list of `profile_table`. -/
def columnSelects (field : Field) : List (List Char) :=
  ["count(".toList ++ quoted field.name ++ ")".toList] ++
  (if orderable field then
    ["min(".toList ++ quoted field.name ++ ")".toList,
      "max(".toList ++ quoted field.name ++ ")".toList] else []) ++
  (if numeric field then
    ["0.25", "0.5", "0.99"].map fun q =>
      "approx_percentile_cont(".toList ++ quoted field.name ++ (", " ++ q ++ ")").toList else [])

/-- The query of `profile_table`. -/
def profileSql (fields : List Field) (table : String) : List Char :=
  "SELECT ".toList ++ intercalate ", ".toList ("count(*)".toList :: fields.flatMap columnSelects) ++
    " FROM ".toList ++ quoted table

end Profile

/-! ## Reading a name back -/

/-- A name between quotes in a text: read from behind the opening quote it comes back and the reader
stops right behind the closing quote, whatever follows the text. -/
def QuotedIn (read : List Char → Option (List Char × List Char)) (text body name : List Char) :
    Prop :=
  ∃ before after, text = before ++ '"' :: (body ++ '"' :: after) ∧
    ∀ rest, read (body ++ '"' :: (after ++ rest)) = some (name, after ++ rest)

theorem quotedIn_call (function name : String) {c : Char} (hc : c ≠ '"') (after : List Char) :
    QuotedIn readDoubled (function.toList ++ Profile.quoted name ++ c :: after)
      (doubled name.toList) name.toList := by
  refine ⟨function.toList, c :: after, by simp [Profile.quoted], fun rest => ?_⟩
  exact readDoubled_append _ fun h => hc (Option.some.inj h)

theorem quotedIn_of_mem_columnSelects {field : Field} {select : List Char}
    (h : select ∈ Profile.columnSelects field) :
    QuotedIn readDoubled select (doubled field.name.toList) field.name.toList := by
  have hclose : (')' : Char) ≠ '"' := by decide
  have hcomma : (',' : Char) ≠ '"' := by decide
  unfold Profile.columnSelects at h
  rcases mem_append.mp h with h | h
  · rcases mem_append.mp h with h | h
    · obtain rfl := mem_singleton.mp h
      exact quotedIn_call "count(" _ hclose []
    · split at h
      · rcases mem_pair.mp h with rfl | rfl
        · exact quotedIn_call "min(" _ hclose []
        · exact quotedIn_call "max(" _ hclose []
      · cases h
  · split at h
    · obtain ⟨q, -, rfl⟩ := mem_map.mp h
      have hrest : (", " ++ q ++ ")").toList = ',' :: (' ' :: (q.toList ++ [')'])) := by simp
      rw [hrest]
      exact quotedIn_call "approx_percentile_cont(" _ hcomma _
    · cases h

theorem infix_intercalate (sep : List Char) {x : List Char} {xs : List (List Char)} (h : x ∈ xs) :
    x <:+: intercalate sep xs := by
  induction xs with
  | nil => cases h
  | cons y ys ih =>
    cases ys with
    | nil =>
      obtain rfl := mem_singleton.mp h
      exact ⟨[], [], by simp [intercalate]⟩
    | cons z zs =>
      have hrest : intercalate sep (y :: z :: zs) = y ++ (sep ++ intercalate sep (z :: zs)) := by
        simp [intercalate, intersperse]
      rw [hrest]
      rcases mem_cons.mp h with rfl | h
      · exact infix_append' [] x _
      · exact (ih h).trans ((suffix_append _ _).trans (suffix_append _ _)).isInfix

/-- The expressions of the columns stand in the query. -/
theorem columnSelects_within {fields : List Field} (table : String) {field : Field}
    (hfield : field ∈ fields) {select : List Char} (h : select ∈ Profile.columnSelects field) :
    select <:+: Profile.profileSql fields table := by
  have hmem : select ∈ "count(*)".toList :: fields.flatMap Profile.columnSelects :=
    mem_cons_of_mem _ (mem_flatMap.mpr ⟨field, hfield, h⟩)
  refine (infix_intercalate ", ".toList hmem).trans ?_
  exact (suffix_append _ _).isInfix.trans
    ((prefix_append _ _).isInfix.trans (prefix_append _ _).isInfix)

/-- **Names stay between their quotes**: that of an operator in the metrics, which also stays on its
line; that of a column in every expression of the select list of the query; and that of the table
at its end. -/
theorem names_stay_quoted :
    (∀ metric operator backend value,
      QuotedIn readBackslashed (operatorLine metric operator backend value).toList
        (escapeLabel operator).toList operator.toList ∧ '\n' ∉ (escapeLabel operator).toList) ∧
    (∀ fields table, ∀ field ∈ fields, ∀ select ∈ Profile.columnSelects field,
      select <:+: Profile.profileSql fields table ∧
        QuotedIn readDoubled select (doubled field.name.toList) field.name.toList) ∧
    ∀ fields table, ∃ before,
      Profile.profileSql fields table = before ++ '"' :: (doubled table.toList ++ ['"']) ∧
        readDoubled (doubled table.toList ++ ['"']) = some (table.toList, []) := by
  refine ⟨fun metric operator backend value => ?_,
    fun fields table field hfield select hselect => ?_,
    fun fields table => ⟨_, rfl, readDoubled_append _ nofun⟩⟩
  · rw [escapeLabel, String.toList_ofList]
    refine ⟨⟨metric.toList ++ "\x7boperator=".toList,
      ",backend=\"".toList ++ (backend.asStr.toList ++
      ("\"\x7d ".toList ++ ((toString value.toNat).toList ++ ['\n']))), ?_, fun rest => ?_⟩, ?_⟩
    · simp [operatorLine, escapeLabel]
    · exact readBackslashed_append _ _
    · exact newline_not_mem_backslashed _
  · exact ⟨columnSelects_within table hfield hselect, quotedIn_of_mem_columnSelects hselect⟩

end OxideLake
