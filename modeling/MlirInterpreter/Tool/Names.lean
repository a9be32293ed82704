import MlirInterpreter.Tool.Text
import Mathlib.Data.List.TakeWhile

/-!
# The names of results

`getSourceName` gives a result the name it has in the source, from what the parser recorded about
the definition of its operation: one name for every group of results, and a number for a result of a
group of several.

A result has a name if and only if a group was recorded that starts at it or before
(`getSourceName_isSome`), and by its name it is found again (`readSourceName_getSourceName`).
-/

set_option autoImplicit false

namespace MlirInterpreter.Tool

open Columns

/-- A name of the source, such as `%a`. -/
structure SourceName where
  text : String
  cell : Cell text
  no_number : '#' ∉ text.toList

theorem isDigit_of_mem_toString {n : ℕ} {c : Char} (h : c ∈ (toString n).toList) :
    c.isDigit = true := by
  rw [Nat.toString_eq_repr, Nat.toList_repr] at h
  exact Nat.isDigit_of_mem_toDigits (by decide) (by decide) h

/-- The name `%n`. -/
def SourceName.numbered (n : ℕ) : SourceName where
  text := "%" ++ toString n
  cell := by
    have hchars : ∀ c ∈ ("%" ++ toString n).toList, c = '%' ∨ c.isDigit = true := by
      intro c hc
      rw [String.toList_append, List.mem_append] at hc
      exact hc.imp (by simp) isDigit_of_mem_toString
    exact ⟨⟨by simp, fun h => absurd (hchars _ h) (by decide)⟩,
      fun h => absurd (hchars _ h) (by decide)⟩
  no_number h := by
    rw [String.toList_append, List.mem_append] at h
    rcases h with h | h
    · exact absurd h (by decide)
    · exact absurd (isDigit_of_mem_toString h) (by decide)

/-- A name that stands for the results from a number on, up to the next group. -/
structure ResultGroup where
  startIndex : ℕ
  name : SourceName

/-- `AsmParserState::OperationDefinition`: the groups of the results of an operation, in order.  No
name is defined twice. -/
structure OperationDefinition where
  resultGroups : List ResultGroup
  nodup : (resultGroups.map fun g => g.name.text).Nodup

/-- The first of the groups, the last one first, that starts at the number or before, and where the
next group starts; the groups before it stop at `stop`. -/
def findGroup (number : ℕ) : (stop : ℕ) → List ResultGroup → Option (ResultGroup × ℕ)
  | _, [] => none
  | stop, group :: groups =>
    if group.startIndex ≤ number then some (group, stop)
    else findGroup number group.startIndex groups

/-- `getSourceName`, of a result of an operation with the given definition and number of results;
`none` where the assertion fails that every result belongs to a group. -/
def getSourceName (def_ : OperationDefinition) (numResults number : ℕ) : Option String :=
  (findGroup number numResults def_.resultGroups.reverse).map fun (group, stop) =>
    if 1 < stop - group.startIndex then
      group.name.text ++ "#" ++ toString (number - group.startIndex)
    else group.name.text

/-- The number of the result with a name. -/
def readSourceName (def_ : OperationDefinition) (name : List Char) : Option ℕ :=
  let offset := Nat.ofDigitChars 10 (name.dropWhile (· ≠ '#')).tail 0
  (def_.resultGroups.find? fun g => g.name.text.toList = name.takeWhile (· ≠ '#')).map
    fun g => g.startIndex + offset

/-- What is found is a group, and the number lies in it. -/
theorem findGroup_eq_some {number stop stop' : ℕ} {groups : List ResultGroup} {group : ResultGroup}
    (h : findGroup number stop groups = some (group, stop')) (hstop : number < stop) :
    group ∈ groups ∧ group.startIndex ≤ number ∧ number < stop' := by
  induction groups generalizing stop with
  | nil => simp [findGroup] at h
  | cons g groups ih =>
    rw [findGroup] at h
    split at h
    · next hg =>
      obtain ⟨rfl, rfl⟩ : g = group ∧ stop = stop' := by simpa using h
      exact ⟨by simp, hg, hstop⟩
    · next hg =>
      obtain ⟨hmem, hrest⟩ := ih h (Nat.not_le.mp hg)
      exact ⟨List.mem_cons_of_mem _ hmem, hrest⟩

theorem findGroup_isSome {number stop : ℕ} {groups : List ResultGroup} :
    (findGroup number stop groups).isSome = true ↔ ∃ g ∈ groups, g.startIndex ≤ number := by
  induction groups generalizing stop with
  | nil => simp [findGroup]
  | cons g groups ih =>
    rw [findGroup]
    split
    · next hg => simp [hg]
    · next hg => simp [ih, hg]

/-- A result has a name exactly if a group starts at its number or before. -/
theorem getSourceName_isSome {def_ : OperationDefinition} {numResults number : ℕ} :
    (getSourceName def_ numResults number).isSome = true ↔
      ∃ g ∈ def_.resultGroups, g.startIndex ≤ number := by
  rw [getSourceName, Option.isSome_map, findGroup_isSome]
  simp

/-- The name of a result is a name in a column. -/
theorem cell_getSourceName {def_ : OperationDefinition} {numResults number : ℕ} {name : String}
    (h : getSourceName def_ numResults number = some name) : Cell name := by
  obtain ⟨⟨group, stop⟩, -, rfl⟩ := Option.map_eq_some_iff.mp h
  dsimp only
  split
  · refine ⟨⟨by simp [group.name.cell.ne_nil], fun hb => ?_⟩, fun hb => ?_⟩
    · simp only [String.toList_append, List.mem_append] at hb
      rcases hb with (hb | hb) | hb
      · exact group.name.cell.no_blank hb
      · exact absurd hb (by decide)
      · exact absurd (isDigit_of_mem_toString hb) (by decide)
    · simp only [String.toList_append, List.mem_append] at hb
      rcases hb with (hb | hb) | hb
      · exact group.name.cell.no_newline hb
      · exact absurd hb (by decide)
      · exact absurd (isDigit_of_mem_toString hb) (by decide)
  · exact group.name.cell

/-- A group is found by its name. -/
theorem find?_name {groups : List ResultGroup} {group : ResultGroup}
    (hnodup : (groups.map fun g => g.name.text).Nodup) (h : group ∈ groups) :
    (groups.find? fun g => g.name.text.toList = group.name.text.toList) = some group := by
  induction groups with
  | nil => simp at h
  | cons g groups ih =>
    rw [List.map_cons, List.nodup_cons] at hnodup
    rw [List.find?_cons]
    rcases List.mem_cons.mp h with rfl | hmem
    · simp
    · have hne : g.name.text ≠ group.name.text := fun heq =>
        hnodup.1 (heq ▸ List.mem_map_of_mem hmem)
      simp only [String.toList_inj, hne, decide_false]
      simpa only [String.toList_inj] using ih hnodup.2 hmem

/-- **A result is found again by its name.** -/
theorem readSourceName_getSourceName {def_ : OperationDefinition} {numResults number : ℕ}
    {name : String} (hn : number < numResults)
    (h : getSourceName def_ numResults number = some name) :
    readSourceName def_ name.toList = some number := by
  obtain ⟨⟨group, stop⟩, hfind, rfl⟩ := Option.map_eq_some_iff.mp h
  obtain ⟨hmem, hle, hlt⟩ := findGroup_eq_some hfind hn
  have hmem := List.mem_reverse.mp hmem
  have hname : ∀ c ∈ group.name.text.toList, decide (c ≠ '#') = true := by
    intro c hc
    rw [decide_eq_true_eq]
    rintro rfl
    exact group.name.no_number hc
  dsimp only
  split
  · have hdigits : (toString (number - group.startIndex)).toList =
        Nat.toDigits 10 (number - group.startIndex) := by
      rw [Nat.toString_eq_repr, Nat.toList_repr]
    have htake : (group.name.text ++ "#" ++ toString (number - group.startIndex)).toList.takeWhile
        (· ≠ '#') = group.name.text.toList := by
      rw [String.toList_append, String.toList_append, List.append_assoc,
        List.takeWhile_append_of_pos hname]
      simp
    have hdrop : ((group.name.text ++ "#" ++ toString (number - group.startIndex)).toList.dropWhile
        (· ≠ '#')).tail = Nat.toDigits 10 (number - group.startIndex) := by
      rw [String.toList_append, String.toList_append, List.append_assoc,
        List.dropWhile_append_of_pos hname, hdigits]
      simp
    rw [readSourceName, htake, hdrop, find?_name def_.nodup hmem, Nat.ofDigitChars_ten_toDigits]
    simp [hle]
  · next hone =>
    have hstart : group.startIndex = number := by omega
    have htake : group.name.text.toList.takeWhile (· ≠ '#') = group.name.text.toList :=
      List.takeWhile_eq_self_iff.mpr hname
    have hdrop : group.name.text.toList.dropWhile (· ≠ '#') = [] :=
      List.dropWhile_eq_nil_iff.mpr hname
    rw [readSourceName, htake, hdrop, find?_name def_.nodup hmem]
    simp [hstart]

end MlirInterpreter.Tool
