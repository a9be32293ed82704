import Mathlib.Data.List.Basic
import Mathlib.Tactic.Common

/-!
# Tables as text

A table is printed line by line, and in a line every cell but the last one is followed by blanks.
`lines` and `cells` take such a text apart again.

However many blanks are printed, as long as there is one, nothing is lost: the lines are found again
if no cell has a newline in it (`lines_unlines`), and so are the cells of a line if the ones before
the last have no blanks in them and none is empty (`cells_line`).
-/

set_option autoImplicit false

namespace Columns

/-! ## Lines -/

/-- Lines, each one ended by a newline. -/
def unlines : List String → String
  | [] => ""
  | line :: rest => line ++ "\n" ++ unlines rest

/-- The lines of a text, without the newlines that end them. -/
def lines (text : String) : List (List Char) := (text.toList.splitOn '\n').dropLast

theorem unlines_toList (ls : List String) :
    (unlines ls).toList = ['\n'].intercalate (ls.map String.toList ++ [[]]) := by
  induction ls with
  | nil => rfl
  | cons line rest ih =>
    rw [unlines, String.toList_append, String.toList_append, ih]
    cases rest <;> simp [List.intercalate]

theorem lines_unlines {ls : List String} (h : ∀ line ∈ ls, '\n' ∉ line.toList) :
    lines (unlines ls) = ls.map String.toList := by
  rw [lines, unlines_toList, List.splitOn_intercalate]
  · simp
  · intro l hl
    rcases List.mem_append.mp hl with hl | hl
    · obtain ⟨line, hline, rfl⟩ := List.mem_map.mp hl
      exact h line hline
    · simp [List.mem_singleton.mp hl]
  · simp

/-! ## Cells -/

/-- A text followed by blanks. -/
def pad (text : String) (blanks : ℕ) : String := text ++ String.ofList (List.replicate blanks ' ')

/-- Cells with the blanks after them, and a last one. -/
def line : List (String × ℕ) → String → String
  | [], last => last
  | (text, blanks) :: cells, last => pad text blanks ++ line cells last

/-- The first `n` cells of a line, and what is left of it. -/
def cells : ℕ → List Char → List (List Char)
  | 0, l => [l]
  | n + 1, l => l.takeWhile (· ≠ ' ') ::
      cells n ((l.dropWhile (· ≠ ' ')).dropWhile (· = ' '))

/-- A text without blanks that is not empty. -/
structure Word (text : String) : Prop where
  ne_nil : text.toList ≠ []
  no_blank : ' ' ∉ text.toList

theorem Word.head (text : String) (h : Word text) : text.toList.head? ≠ some ' ' :=
  fun hhead => h.no_blank (List.mem_of_mem_head? hhead)

theorem line_head {cs : List (String × ℕ)} {last : String} (h : ∀ c ∈ cs, Word c.1)
    (hlast : last.toList.head? ≠ some ' ') : (line cs last).toList.head? ≠ some ' ' := by
  cases cs with
  | nil => exact hlast
  | cons c cs =>
    obtain ⟨text, blanks⟩ := c
    have hword : Word text := h (text, blanks) (by simp)
    rw [line, pad, String.toList_append, String.toList_append, List.append_assoc,
      List.head?_append_of_ne_nil _ hword.ne_nil]
    exact hword.head

theorem dropWhile_blanks {n : ℕ} {l : List Char} (h : l.head? ≠ some ' ') :
    (List.replicate n ' ' ++ l).dropWhile (· = ' ') = l := by
  rw [List.dropWhile_append_of_pos (by simp)]
  cases l with
  | nil => rfl
  | cons c l =>
    have hc : c ≠ ' ' := by simpa using h
    simp [hc]

/-- The cells of a line are the ones that were printed. -/
theorem cells_line {cs : List (String × ℕ)} {last : String} (h : ∀ c ∈ cs, Word c.1 ∧ 0 < c.2)
    (hlast : last.toList.head? ≠ some ' ') :
    cells cs.length (line cs last).toList = cs.map (fun c => c.1.toList) ++ [last.toList] := by
  induction cs with
  | nil => rfl
  | cons c cs ih =>
    obtain ⟨text, blanks⟩ := c
    obtain ⟨hword, hblanks⟩ : Word text ∧ 0 < blanks := h (text, blanks) (by simp)
    obtain ⟨k, rfl⟩ : ∃ k, blanks = k + 1 := ⟨blanks - 1, by omega⟩
    have hrest : (line cs last).toList.head? ≠ some ' ' :=
      line_head (fun c hc => (h c (List.mem_cons_of_mem _ hc)).1) hlast
    have htext : ∀ x ∈ text.toList, decide (x ≠ ' ') = true := by
      intro x hx
      rw [decide_eq_true_eq]
      rintro rfl
      exact hword.no_blank hx
    have hline : (line ((text, k + 1) :: cs) last).toList =
        text.toList ++ (List.replicate (k + 1) ' ' ++ (line cs last).toList) := by
      simp [line, pad]
    -- The word ends at the first blank, and the next one starts after the last.
    have hword' :
        (List.replicate (k + 1) ' ' ++ (line cs last).toList).takeWhile (· ≠ ' ') = [] := by
      simp [List.replicate_succ]
    have hrest' : (List.replicate (k + 1) ' ' ++ (line cs last).toList).dropWhile (· ≠ ' ') =
        List.replicate (k + 1) ' ' ++ (line cs last).toList := by
      simp [List.replicate_succ]
    rw [List.length_cons, cells, hline, List.takeWhile_append_of_pos htext,
      List.dropWhile_append_of_pos htext, hword', hrest', dropWhile_blanks hrest, List.append_nil,
      ih fun c hc => h c (List.mem_cons_of_mem _ hc)]
    rfl

end Columns
