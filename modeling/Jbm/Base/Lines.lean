import Mathlib.Data.List.TakeWhile

/-!
# Lines of a text that is still being written

A line reader over the end of a growing file: `nextLine` answers the next newline-terminated
line, without its line end, and at the end of the file it answers a non-empty unterminated rest
as a line of its own. `lines` is everything it answers until it has nothing left.

The laws are about cutting. A cut at a line end loses nothing (`lines_append`). A cut inside a
line does: the reader has already handed out the first part when the second one arrives, so the
lines of the two parts are not the lines of the whole.
-/

set_option autoImplicit false

namespace Base

/-- The line end of a terminated line: a carriage return before the newline goes with it. -/
def chomp (line : List Char) : List Char :=
  if line.getLast? = some '\r' then line.dropLast else line

/-- One call of a line reader on the text that is there: the line, and the text behind it. -/
def nextLine (text : List Char) : Option (List Char × List Char) :=
  match text with
  | [] => none
  | _ :: _ =>
    match text.dropWhile (· ≠ '\n') with
    | [] => some (text, [])
    | _ :: rest => some (chomp (text.takeWhile (· ≠ '\n')), rest)

/-- A call of the reader consumes something. -/
theorem nextLine_length {text line rest : List Char} (h : nextLine text = some (line, rest)) :
    rest.length < text.length := by
  unfold nextLine at h
  split at h
  · cases h
  · next c cs =>
    split at h
    · cases h; simp
    · next d ds hd =>
      cases h
      have := (List.dropWhile_suffix (· ≠ '\n') (l := c :: cs)).length_le
      rw [hd] at this
      exact this

/-- Everything the reader answers until it has nothing left. The counter bounds the number of
calls; the length of the text is always enough (`readLines_eq`). -/
def readLines : Nat → List Char → List (List Char)
  | 0, _ => []
  | n + 1, text =>
    match nextLine text with
    | none => []
    | some (line, rest) => line :: readLines n rest

/-- The lines of a text. -/
def lines (text : List Char) : List (List Char) := readLines text.length text

theorem readLines_eq {n : Nat} {text : List Char} (h : text.length ≤ n) :
    readLines n text = lines text := by
  suffices ∀ n m, ∀ text : List Char, text.length ≤ n → text.length ≤ m →
      readLines n text = readLines m text from this n _ text h (Nat.le_refl _)
  intro n
  induction n with
  | zero =>
    intro m text hn _
    obtain rfl : text = [] := List.length_eq_zero_iff.mp (Nat.le_zero.mp hn)
    cases m <;> rfl
  | succ n ih =>
    intro m text hn hm
    cases m with
    | zero =>
      obtain rfl : text = [] := List.length_eq_zero_iff.mp (Nat.le_zero.mp hm)
      rfl
    | succ m =>
      unfold readLines
      cases hl : nextLine text with
      | none => rfl
      | some p =>
        obtain ⟨line, rest⟩ := p
        have hlt := nextLine_length hl
        exact congrArg _ (ih m rest (by omega) (by omega))

@[simp] theorem lines_nil : lines [] = [] := rfl

/-- The reader's answers, one call after another. -/
theorem lines_of_nextLine {text line rest : List Char} (h : nextLine text = some (line, rest)) :
    lines text = line :: lines rest := by
  have hlt := nextLine_length h
  cases text with
  | nil => cases h
  | cons c cs =>
    simp only [lines, List.length_cons, readLines, h]
    exact congrArg _ (readLines_eq (by simpa using Nat.lt_succ_iff.mp hlt))

/-- A terminated line is answered without its end, and the reader goes on behind it. -/
theorem lines_of_newline {line : List Char} (h : '\n' ∉ line) (rest : List Char) :
    lines (line ++ '\n' :: rest) = chomp line :: lines rest := by
  have hp : ∀ c ∈ line, decide (c ≠ '\n') = true := by
    intro c hc
    have : c ≠ '\n' := fun e => h (e ▸ hc)
    simpa using this
  have htake : (line ++ '\n' :: rest).takeWhile (· ≠ '\n') = line := by
    rw [List.takeWhile_append_of_pos hp]
    simp
  have hdrop : (line ++ '\n' :: rest).dropWhile (· ≠ '\n') = '\n' :: rest := by
    rw [List.dropWhile_append_of_pos hp]
    simp
  apply lines_of_nextLine
  unfold nextLine
  split
  · next he => simp at he
  · simp only [hdrop, htake]

/-- A cut at a line end loses nothing: the lines of a text are those up to the cut, then those
behind it. -/
theorem lines_append (a b : List Char) :
    lines (a ++ '\n' :: b) = lines (a ++ ['\n']) ++ lines b := by
  induction hn : a.length using Nat.strongRecOn generalizing a with
  | ind n ih =>
    by_cases h : '\n' ∈ a
    · obtain ⟨line, rest, rfl, hline⟩ := List.eq_append_cons_of_mem h
      have hlen : rest.length < n := by
        rw [← hn, List.length_append, List.length_cons]
        omega
      rw [List.append_assoc, List.append_assoc, List.cons_append, List.cons_append,
        lines_of_newline hline, lines_of_newline hline, ih _ hlen rest rfl, List.cons_append]
    · rw [lines_of_newline h, lines_of_newline h, lines_nil, List.singleton_append]

end Base
