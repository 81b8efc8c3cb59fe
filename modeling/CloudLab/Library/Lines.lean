import Mathlib

/-!
# Lines of a text

A text is cut at every newline. `lines` are the pieces that are not empty, `endedLines` those of
them that a newline ends, and `lastLine` is what stands behind the last newline.
-/
namespace Library

variable {α : Type} [DecidableEq α] (newline : α)

def lines (text : List α) : List (List α) := (text.splitOn newline).filter fun line => line ≠ []

def endedLines (text : List α) : List (List α) :=
  (text.splitOn newline).dropLast.filter fun line => line ≠ []

def lastLine (text : List α) : List α :=
  (text.splitOn newline).getLast (List.splitOn_ne_nil newline text)

/-- A text has no newline, or goes on behind its first one. -/
theorem line_induction {motive : List α → Prop} (last : ∀ line, newline ∉ line → motive line)
    (next : ∀ line rest, newline ∉ line → motive rest → motive (line ++ newline :: rest))
    (text : List α) : motive text := by
  induction size : text.length using Nat.strong_induction_on generalizing text with
  | _ size ih =>
    by_cases member : newline ∈ text
    · obtain ⟨line, rest, rfl, first⟩ := List.eq_append_cons_of_mem member
      apply next line rest first
      apply ih rest.length _ rest rfl
      rw [← size, List.length_append, List.length_cons]
      omega
    · exact last text member

variable {newline}

theorem lines_last {line : List α} (single : newline ∉ line) :
    lines newline line = if line = [] then [] else [line] := by
  rw [lines, List.splitOn_eq_singleton single, List.filter_singleton]
  simp

theorem lines_next {line : List α} (first : newline ∉ line) (rest : List α) :
    lines newline (line ++ newline :: rest) = lines newline line ++ lines newline rest := by
  rw [lines_last first, lines, List.splitOn_append_cons_self_of_not_mem first, List.filter_cons,
    lines]
  by_cases empty : line = [] <;> simp [empty]

theorem endedLines_last {line : List α} (single : newline ∉ line) :
    endedLines newline line = [] := by
  rw [endedLines, List.splitOn_eq_singleton single]
  rfl

theorem endedLines_next {line : List α} (first : newline ∉ line) (rest : List α) :
    endedLines newline (line ++ newline :: rest) =
      lines newline line ++ endedLines newline rest := by
  rw [lines_last first, endedLines, List.splitOn_append_cons_self_of_not_mem first,
    List.dropLast_cons_of_ne_nil (List.splitOn_ne_nil newline rest), List.filter_cons, endedLines]
  by_cases empty : line = [] <;> simp [empty]

theorem lastLine_last {line : List α} (single : newline ∉ line) : lastLine newline line = line := by
  simp only [lastLine, List.splitOn_eq_singleton single, List.getLast_singleton]

theorem lastLine_next {line : List α} (first : newline ∉ line) (rest : List α) :
    lastLine newline (line ++ newline :: rest) = lastLine newline rest := by
  simp only [lastLine, List.splitOn_append_cons_self_of_not_mem first]
  rw [List.getLast_cons]

/-- The last line is one more, unless it is empty. -/
theorem lines_eq_endedLines (text : List α) :
    lines newline text = endedLines newline text ++
      if lastLine newline text = [] then [] else [lastLine newline text] := by
  induction text using line_induction newline with
  | last line single =>
    rw [lines_last single, endedLines_last single, lastLine_last single, List.nil_append]
  | next line rest first ih =>
    rw [lines_next first, endedLines_next first, lastLine_next first, List.append_assoc, ih]

/-- Nothing stands behind the last newline. -/
theorem lastLine_eq_nil_iff (text : List α) :
    lastLine newline text = [] ↔ ∀ b ∈ text.getLast?, b = newline := by
  induction text using line_induction newline with
  | last line single =>
    rw [lastLine_last single]
    constructor
    · rintro rfl b member
      cases member
    · intro ends
      by_contra nonempty
      have member := List.getLast_mem nonempty
      rw [ends _ (List.getLast?_eq_getLast_of_ne_nil nonempty)] at member
      exact single member
  | next line rest first ih =>
    rw [lastLine_next first, ih]
    cases rest <;> simp

end Library
