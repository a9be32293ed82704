import MlirInterpreter.Engine.State
import MlirInterpreter.Foundations.Columns

/-!
# What the interpreter tool prints

The functions of `interpreter.cpp` that make the texts of the report, and functions that read them.

A row has four columns, and a reader finds in them what the row was made of: the name, the answer,
if the width of its type is known, and how its lookup went (`readRow_cells`).  So a report says what
it was made of (`readReport_printReport`), however wide the display finds its texts.
-/

set_option autoImplicit false

namespace MlirInterpreter.Tool

open Columns

/-! ## Cells -/

/-- `EvalStatus`. -/
inductive EvalStatus
  | completed
  | exhausted
  | needsOrder
  | cycle
deriving DecidableEq

/-- The status of a result. -/
def status {α : Type} : EvalResult α → EvalStatus
  | .completed _ => .completed
  | .signal .exhausted => .exhausted
  | .signal .needsOrder => .needsOrder
  | .signal .cycle => .cycle

def stringifyEvalStatus : EvalStatus → String
  | .completed => "completed"
  | .exhausted => "exhausted"
  | .needsOrder => "needs order"
  | .cycle => "cycle"

def printCacheOutcome : CacheOutcome → String
  | .none => "—"
  | .hit => "hit"
  | .miss => "miss"

/-- `llvm::toString` of the bits, in base 10 and read as signed. -/
def toSignedString (bits : APInt) : String := toString bits.bits.toInt

/-- `printEvaluated`, for answers that were classified: a value is an integer, or of another
class. -/
def printEvaluated : EvalResult (Option (Option APInt)) → String
  | .signal _ => "—"
  | .completed none => "unknown"
  | .completed (some (some bits)) =>
    -- Printed as signed, an i1 `true` would read as -1.
    if bits.width = 1 then
      if bits.bits.toNat = 1 then "true" else "false"
    else toSignedString bits
  | .completed (some none) => "known"

/-- `printColumn`, given how many columns of the display the text takes. -/
def printColumn (columnWidth : String → ℤ) (text : String) (width : ℤ) : String :=
  pad text (max (width - columnWidth text) 1).toNat

/-- The texts of a row. -/
structure Row where
  value : String
  evaluated : String
  cache : String
  status : String
deriving DecidableEq

/-- The header of the report. -/
def header : Row := ⟨"value", "evaluated", "cache", "status"⟩

/-- One line of the report. -/
def printRow (columnWidth : String → ℤ) (row : Row) : String :=
  printColumn columnWidth row.value 8 ++ printColumn columnWidth row.evaluated 12 ++
    printColumn columnWidth row.cache 9 ++ row.status

/-! ## Reading cells -/

/-- An integer in base 10. -/
def readInteger : List Char → ℤ
  | '-' :: digits => -(Nat.ofDigitChars 10 digits 0 : ℕ)
  | digits => (Nat.ofDigitChars 10 digits 0 : ℕ)

/-- A value of an integer type of the given width. -/
def readValue (width : ℕ) (cell : List Char) : Option (Option APInt) :=
  if cell = "unknown".toList then none
  else if cell = "known".toList then some none
  else if cell = "true".toList then some (some ⟨1, 1⟩)
  else if cell = "false".toList then some (some ⟨1, 0⟩)
  else some (some ⟨width, BitVec.ofInt width (readInteger cell)⟩)

def readStatus (cell : List Char) : Option EvalStatus :=
  [.completed, .exhausted, .needsOrder, .cycle].find? fun s => (stringifyEvalStatus s).toList = cell

def readCacheOutcome (cell : List Char) : Option CacheOutcome :=
  [.none, .hit, .miss].find? fun o => (printCacheOutcome o).toList = cell

theorem readStatus_stringify (s : EvalStatus) :
    readStatus (stringifyEvalStatus s).toList = some s := by
  cases s <;> decide

theorem readCacheOutcome_print (o : CacheOutcome) :
    readCacheOutcome (printCacheOutcome o).toList = some o := by
  cases o <;> decide

/-- Digits, or a minus and digits. -/
theorem toString_int (z : ℤ) : ∃ n : ℕ, z = n ∧ (toString z).toList = Nat.toDigits 10 n ∨
    z = -n ∧ (toString z).toList = '-' :: Nat.toDigits 10 n := by
  cases z with
  | ofNat n => exact ⟨n, .inl ⟨rfl, Nat.toList_repr⟩⟩
  | negSucc n =>
    refine ⟨n + 1, .inr ⟨Int.negSucc_eq n, ?_⟩⟩
    change ("-" ++ (n + 1).repr).toList = _
    rw [String.toList_append, Nat.toList_repr]
    rfl

theorem readInteger_toString (z : ℤ) : readInteger (toString z).toList = z := by
  obtain ⟨n, ⟨rfl, h⟩ | ⟨rfl, h⟩⟩ := toString_int z
  · rw [h]
    have hdigit : ∀ c ∈ Nat.toDigits 10 n, c ≠ '-' := by
      rintro c hc rfl
      exact absurd (Nat.isDigit_of_mem_toDigits (by decide) (by decide) hc) (by decide)
    rw [readInteger]
    · rw [Nat.ofDigitChars_ten_toDigits]
    · intro digits hd
      exact hdigit '-' (by simp [hd]) rfl
  · rw [h, readInteger, Nat.ofDigitChars_ten_toDigits]

/-- An integer is a word, and none of the other things that are printed. -/
theorem toString_int_chars (z : ℤ) : (toString z).toList ≠ [] ∧
    ∀ c ∈ (toString z).toList, c.isDigit = true ∨ c = '-' := by
  have hdigit : ∀ n, ∀ c ∈ Nat.toDigits 10 n, c.isDigit = true := fun n c hc =>
    Nat.isDigit_of_mem_toDigits (by decide) (by decide) hc
  obtain ⟨n, ⟨-, h⟩ | ⟨-, h⟩⟩ := toString_int z
  · rw [h]
    exact ⟨Nat.toDigits_ne_nil, fun c hc => .inl (hdigit n c hc)⟩
  · rw [h]
    refine ⟨by simp, fun c hc => ?_⟩
    rcases List.mem_cons.mp hc with rfl | hc
    · exact .inr rfl
    · exact .inl (hdigit n c hc)

theorem toString_int_ne (z : ℤ) {text : String}
    (h : text.toList.head?.all fun c => !c.isDigit && c ≠ '-') :
    (toString z).toList ≠ text.toList := by
  intro heq
  obtain ⟨hne, hchars⟩ := toString_int_chars z
  cases hl : (toString z).toList with
  | nil => exact hne hl
  | cons c l =>
    have hc := hchars c (hl ▸ List.mem_cons_self)
    rw [← heq, hl] at h
    simp_all

/-- What an evaluated value says. -/
theorem readValue_printEvaluated {width : ℕ} {value : Option (Option APInt)}
    (hw : ∀ bits, value = some (some bits) → bits.width = width) :
    readValue width (printEvaluated (.completed value)).toList = value := by
  rcases value with _ | _ | bits
  · rfl
  · rfl
  · obtain rfl := hw bits rfl
    obtain ⟨w, x⟩ := bits
    rw [printEvaluated]
    split
    · next h1 =>
      obtain rfl : w = 1 := h1
      split
      · next h =>
        obtain rfl : x = 1 := BitVec.eq_of_toNat_eq h
        rfl
      · next h =>
        have hlt : x.toNat < 2 ^ 1 := x.isLt
        have hne : x.toNat ≠ 1 := h
        obtain rfl : x = 0 := BitVec.eq_of_toNat_eq (show x.toNat = 0 by omega)
        rfl
    · have hne : ∀ text : String, (text.toList.head?.all fun c => !c.isDigit && c ≠ '-') →
          (toSignedString ⟨w, x⟩).toList ≠ text.toList := fun text h => toString_int_ne _ h
      rw [readValue, if_neg (hne "unknown" rfl), if_neg (hne "known" rfl), if_neg (hne "true" rfl),
        if_neg (hne "false" rfl), toSignedString, readInteger_toString, BitVec.ofInt_toInt]

/-! ## Rows -/

/-- A text that can stand in a column. -/
structure Cell (text : String) : Prop extends Word text where
  no_newline : '\n' ∉ text.toList

theorem cell_printEvaluated (answer : EvalResult (Option (Option APInt))) :
    Cell (printEvaluated answer) := by
  have word : ∀ text : String, text.toList ≠ [] → ' ' ∉ text.toList → '\n' ∉ text.toList →
      Cell text := fun _ h h' h'' => ⟨⟨h, h'⟩, h''⟩
  rcases answer with (_ | _ | bits) | st
  · exact word _ (by decide) (by decide) (by decide)
  · exact word _ (by decide) (by decide) (by decide)
  · rw [printEvaluated]
    split
    · split
      · exact word _ (by decide) (by decide) (by decide)
      · exact word _ (by decide) (by decide) (by decide)
    · obtain ⟨hne, hchars⟩ := toString_int_chars bits.bits.toInt
      refine word _ hne (fun h => ?_) fun h => ?_
      · exact absurd (hchars _ h) (by decide)
      · exact absurd (hchars _ h) (by decide)
  · exact word "—" (by decide) (by decide) (by decide)

theorem cell_printCacheOutcome (outcome : CacheOutcome) : Cell (printCacheOutcome outcome) := by
  cases outcome <;> exact ⟨⟨by decide, by decide⟩, by decide⟩

/-- What a row says: the name of a result, its answer, and how its lookup went. -/
structure Finding where
  name : String
  answer : EvalResult (Option (Option APInt))
  outcome : CacheOutcome
deriving DecidableEq

def Finding.row (f : Finding) : Row :=
  ⟨f.name, printEvaluated f.answer, printCacheOutcome f.outcome,
    stringifyEvalStatus (status f.answer)⟩

/-- Read the cells of a row about a value of the given width. -/
def readRow (width : ℕ) : List (List Char) → Option Finding
  | [name, evaluated, cache, st] => do
    let outcome ← readCacheOutcome cache
    let answer ← (readStatus st).map fun
      | .completed => .completed (readValue width evaluated)
      | .exhausted => .signal .exhausted
      | .needsOrder => .signal .needsOrder
      | .cycle => .signal .cycle
    return ⟨String.ofList name, answer, outcome⟩
  | _ => none

/-- The value of the finding is printed in full. -/
structure Finding.Fits (width : ℕ) (f : Finding) : Prop where
  cell : Cell f.name
  width_eq : ∀ bits, f.answer = .completed (some (some bits)) → bits.width = width

theorem printRow_eq_line (columnWidth : String → ℤ) (row : Row) :
    ∃ a b c, 0 < a ∧ 0 < b ∧ 0 < c ∧ printRow columnWidth row =
      line [(row.value, a), (row.evaluated, b), (row.cache, c)] row.status := by
  have hpos : ∀ z : ℤ, 0 < (max z 1).toNat := fun z => by omega
  refine ⟨_, _, _, hpos (8 - columnWidth row.value), hpos (12 - columnWidth row.evaluated),
    hpos (9 - columnWidth row.cache), ?_⟩
  simp only [printRow, printColumn, line, String.append_assoc]

/-- A row says what it was made of. -/
theorem readRow_cells (columnWidth : String → ℤ) {width : ℕ} {f : Finding} (hf : f.Fits width) :
    readRow width (cells 3 (printRow columnWidth f.row).toList) = some f := by
  obtain ⟨a, b, c, ha, hb, hc, hrow⟩ := printRow_eq_line columnWidth f.row
  have hcells : ∀ x ∈ [(f.row.value, a), (f.row.evaluated, b), (f.row.cache, c)],
      Word x.1 ∧ 0 < x.2 := by
    intro x hx
    simp only [List.mem_cons, List.not_mem_nil, or_false] at hx
    rcases hx with rfl | rfl | rfl
    · exact ⟨hf.cell.toWord, ha⟩
    · exact ⟨(cell_printEvaluated f.answer).toWord, hb⟩
    · exact ⟨(cell_printCacheOutcome f.outcome).toWord, hc⟩
  have hlast : f.row.status.toList.head? ≠ some ' ' := by
    change (stringifyEvalStatus (status f.answer)).toList.head? ≠ some ' '
    cases status f.answer <;> decide
  rw [hrow]
  refine (congrArg (readRow width) (cells_line hcells hlast)).trans ?_
  simp only [List.map_cons, List.map_nil, List.cons_append, List.nil_append, readRow, Finding.row,
    readCacheOutcome_print, readStatus_stringify, String.ofList_toList, Option.map_some]
  obtain ⟨name, (value | (_ | _ | _)), outcome⟩ := f
  · have hvalue := readValue_printEvaluated fun bits h => hf.width_eq bits (h ▸ rfl)
    simp only [status, hvalue]
    rfl
  · rfl
  · rfl
  · rfl

/-- A line of the report has no newline in it. -/
theorem printRow_no_newline (columnWidth : String → ℤ) {row : Row} (hv : '\n' ∉ row.value.toList)
    (he : '\n' ∉ row.evaluated.toList) (hc : '\n' ∉ row.cache.toList)
    (hs : '\n' ∉ row.status.toList) : '\n' ∉ (printRow columnWidth row).toList := by
  simp [printRow, printColumn, pad, hv, he, hc, hs]

/-- The report of some rows. -/
def printReport (columnWidth : String → ℤ) (rows : List Row) : String :=
  unlines ((header :: rows).map (printRow columnWidth))

/-- Read lines about values of the given widths. -/
def readRows : List ℕ → List (List Char) → Option (List Finding)
  | [], [] => some []
  | width :: widths, l :: ls => do
    let f ← readRow width (cells 3 l)
    return f :: (← readRows widths ls)
  | _, _ => none

/-- Read a report about values of the given widths. -/
def readReport (widths : List ℕ) (text : String) : Option (List Finding) :=
  readRows widths (lines text).tail

/-- A report says what it was made of. -/
theorem readReport_printReport (columnWidth : String → ℤ) {widths : List ℕ} {fs : List Finding}
    (h : List.Forall₂ (fun width f => Finding.Fits width f) widths fs) :
    readReport widths (printReport columnWidth (fs.map Finding.row)) = some fs := by
  have hfits : ∀ f ∈ fs, ∃ width, f.Fits width := by
    clear columnWidth
    induction h with
    | nil => simp
    | cons hf _ ih =>
      intro f hmem
      rcases List.mem_cons.mp hmem with rfl | hmem
      · exact ⟨_, hf⟩
      · exact ih f hmem
  have hlines : ∀ text ∈ (header :: fs.map Finding.row).map (printRow columnWidth),
      '\n' ∉ text.toList := by
    intro text htext
    obtain ⟨row, hrow, rfl⟩ := List.mem_map.mp htext
    rcases List.mem_cons.mp hrow with rfl | hrow
    · exact printRow_no_newline columnWidth (by decide) (by decide) (by decide) (by decide)
    · obtain ⟨f, hf, rfl⟩ := List.mem_map.mp hrow
      obtain ⟨_, hfit⟩ := hfits f hf
      refine printRow_no_newline columnWidth hfit.cell.no_newline
        (cell_printEvaluated f.answer).no_newline (cell_printCacheOutcome f.outcome).no_newline ?_
      change '\n' ∉ (stringifyEvalStatus (status f.answer)).toList
      cases status f.answer <;> decide
  rw [readReport, printReport, lines_unlines hlines]
  simp only [List.map_cons, List.tail_cons]
  clear hlines hfits
  induction h with
  | nil => rfl
  | cons hf _ ih =>
    simp only [List.map_cons, readRows, readRow_cells columnWidth hf, ih]
    rfl

end MlirInterpreter.Tool
