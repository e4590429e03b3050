import YangConstraint.Text.Basic

/-! Slash-separated absolute paths. The empty text addresses the root of a tree. -/
namespace YangConstraint.Path

open Text

/-- The path above the last slash. -/
def parent? (path : String) : Option String :=
  (splitLast '/' path.toList).map fun cut => String.ofList cut.1

/-- The text below the last slash. -/
def lastSegment? (path : String) : Option String :=
  (splitLast '/' path.toList).map fun cut => String.ofList cut.2

def join (base segment : String) : String := base ++ "/" ++ segment

/-- The non-empty texts between slashes. -/
def segments (path : String) : List String :=
  ((path.toList.splitOn '/').filter (!·.isEmpty)).map String.ofList

/-- A value without what precedes its first colon. -/
def unqualified (value : String) : String := (afterFirst? ':' value).getD value

/-- The part of `path` below `base`, which a slash opens. -/
def below? (base path : String) : Option String := after? (base ++ "/") path

variable {base path segment : String}

@[simp] theorem toList_join :
    (join base segment).toList = base.toList ++ '/' :: segment.toList := by
  simp [join]

theorem parent?_join (h : '/' ∉ segment.toList) : parent? (join base segment) = some base := by
  simp [parent?, splitLast_append h]

theorem parent?_eq_none_iff : parent? path = none ↔ '/' ∉ path.toList := by
  simp [parent?, splitLast_eq_none_iff]

theorem below?_eq_some_iff {rest : String} :
    below? base path = some rest ↔ path = join base rest := by
  simp [below?, join, after?_eq_some_iff]

@[simp] theorem segments_empty : segments "" = [] := by
  simp [segments]

theorem segments_join : segments (join base segment) = segments base ++ segments segment := by
  simp [segments, List.splitOn_append_cons_self]

end YangConstraint.Path
