import Jbm.Base.Lines
import Mathlib.Data.List.Basic
import Mathlib.Data.List.Induction

/-!
# A file read while it is written

A file is written in chunks, and after each chunk a reader reads every line it can get. A chunk
may end inside a line; the reader then answers what is there of it, and what follows as another
line. `cutLines` goes through the chunks and records, for every line of the file, the answers
the reader gave of it.

Two equations tie the record to both readings: its answers in order are what the reader answers
chunk by chunk (`flatMap_lines`), and its lines are what a single reading of the whole file
answers (`lines_flatten`). So the two readings differ line by line, where a line was cut.
-/

set_option autoImplicit false

namespace Base

/-- The text ends where a line ends. -/
def AtLineEnd (text : List Char) : Prop := text = [] ∨ text.getLast? = some '\n'

instance (text : List Char) : Decidable (AtLineEnd text) := inferInstanceAs (Decidable (_ ∨ _))

theorem atLineEnd_newline (text : List Char) : AtLineEnd (text ++ ['\n']) := .inr (by simp)

/-- What follows a line end is read as if it stood alone. -/
theorem lines_append_of_atLineEnd {a : List Char} (h : AtLineEnd a) (b : List Char) :
    lines (a ++ b) = lines a ++ lines b := by
  rcases h with rfl | h
  · rfl
  · obtain ⟨a, rfl⟩ := List.getLast?_eq_some_iff.mp h
    rw [List.append_assoc, List.singleton_append, lines_append]

/-- A rest without a line end makes the text end inside a line. -/
theorem eq_nil_of_atLineEnd {a b : List Char} (h : AtLineEnd (a ++ b)) (hb : '\n' ∉ b) :
    b = [] := by
  rcases h with h | h
  · exact (List.append_eq_nil_iff.mp h).2
  · by_contra hne
    rw [List.getLast?_append_of_ne_nil _ hne] at h
    exact hb (List.mem_of_getLast? h)

/-- A line of a file, without its newline, and what the reader answered of it. -/
structure CutLine where
  line : List Char
  answers : List (List Char)

/-- The record while the file is written: the lines finished, and of the open line all that is
written, what the reader has answered, and the piece behind it. -/
structure Cutting where
  finished : List CutLine
  line : List Char
  answers : List (List Char)
  piece : List Char

namespace Cutting

def start : Cutting := ⟨[], [], [], []⟩

/-- A character is written. -/
def write (s : Cutting) (c : Char) : Cutting :=
  if c = '\n' then
    ⟨s.finished ++ [⟨s.line, s.answers ++ [chomp s.piece]⟩], [], [], []⟩
  else { s with line := s.line ++ [c], piece := s.piece ++ [c] }

/-- The reader reads what is there. -/
def read (s : Cutting) : Cutting :=
  { s with answers := s.answers ++ lines s.piece, piece := [] }

/-- A chunk is written and read. -/
def chunk (s : Cutting) (text : List Char) : Cutting := (text.foldl write s).read

/-- The record after the chunks `done` and the part `part` of the next one. -/
def after (done : List (List Char)) (part : List Char) : Cutting :=
  part.foldl write (done.foldl chunk start)

theorem after_concat (done : List (List Char)) (part : List Char) (c : Char) :
    after done (part ++ [c]) = (after done part).write c := by
  rw [after, List.foldl_append]
  rfl

theorem after_read (done : List (List Char)) (part : List Char) :
    after (done ++ [part]) [] = (after done part).read := by
  rw [after, List.foldl_append]
  rfl

end Cutting

/-- The lines of a file written in `chunks`, each with what the reader answered of it when it
read after every chunk. -/
def cutLines (chunks : List (List Char)) : List CutLine := (Cutting.after chunks []).finished

/-! ## Both readings -/

/-- The record accounts for both readings: `h` is what of the open chunk lies before the piece,
and `g` what of the whole text lies before the open line. -/
structure Follows (done : List (List Char)) (part : List Char) (s : Cutting) : Prop where
  chunked : ∃ h, part = h ++ s.piece ∧ AtLineEnd h ∧
    s.finished.flatMap CutLine.answers ++ s.answers = done.flatMap lines ++ lines h
  whole : ∃ g, done.flatten ++ part = g ++ s.line ∧ AtLineEnd g ∧
    s.finished.map (fun l => chomp l.line) = lines g
  piece_open : '\n' ∉ s.piece
  line_open : '\n' ∉ s.line
  fresh : s.line = [] → s.answers = [] ∧ s.piece = []

theorem Follows.start : Follows [] [] .start where
  chunked := ⟨[], rfl, .inl rfl, rfl⟩
  whole := ⟨[], rfl, .inl rfl, rfl⟩
  piece_open := List.not_mem_nil
  line_open := List.not_mem_nil
  fresh _ := ⟨rfl, rfl⟩

theorem Follows.write {done : List (List Char)} {part : List Char} {s : Cutting}
    (hs : Follows done part s) (c : Char) : Follows done (part ++ [c]) (s.write c) := by
  obtain ⟨⟨h, hpart, hend, hanswers⟩, ⟨g, htext, hgend, hlines⟩, hpiece, hline, _⟩ := hs
  by_cases hc : c = '\n'
  · subst hc
    rw [Cutting.write, if_pos rfl]
    refine ⟨⟨part ++ ['\n'], ?_, atLineEnd_newline part, ?_⟩,
      ⟨done.flatten ++ part ++ ['\n'], ?_, atLineEnd_newline _, ?_⟩, List.not_mem_nil,
      List.not_mem_nil, fun _ => ⟨rfl, rfl⟩⟩
    · rw [List.append_nil]
    · rw [hpart, List.append_assoc, lines_append_of_atLineEnd hend, lines_of_newline hpiece,
        lines_nil, ← List.append_assoc, ← hanswers, List.flatMap_append, List.flatMap_singleton]
      simp only [List.append_assoc, List.append_nil]
    · rw [List.append_nil, List.append_assoc]
    · rw [htext, List.append_assoc, lines_append_of_atLineEnd hgend, lines_of_newline hline,
        lines_nil, List.map_append, hlines]
      rfl
  · rw [Cutting.write, if_neg hc]
    have hopen : ∀ text : List Char, '\n' ∉ text → '\n' ∉ text ++ [c] := by
      intro text ht hmem
      rcases List.mem_append.mp hmem with hmem | hmem
      · exact ht hmem
      · exact hc (List.mem_singleton.mp hmem).symm
    refine ⟨⟨h, ?_, hend, hanswers⟩, ⟨g, ?_, hgend, hlines⟩, hopen _ hpiece, hopen _ hline,
      fun hnil => ?_⟩
    · rw [hpart, List.append_assoc]
    · rw [← List.append_assoc, htext, List.append_assoc]
    · simp at hnil

theorem Follows.read {done : List (List Char)} {part : List Char} {s : Cutting}
    (hs : Follows done part s) : Follows (done ++ [part]) [] s.read := by
  obtain ⟨⟨h, hpart, hend, hanswers⟩, ⟨g, htext, hgend, hlines⟩, _, hline, hfresh⟩ := hs
  refine ⟨⟨[], rfl, .inl rfl, ?_⟩, ⟨g, ?_, hgend, hlines⟩, List.not_mem_nil, hline,
    fun hnil => ⟨?_, rfl⟩⟩
  · rw [lines_nil, List.append_nil, List.flatMap_append, List.flatMap_singleton, hpart,
      lines_append_of_atLineEnd hend, ← List.append_assoc, ← hanswers, List.append_assoc]
    rfl
  · rw [List.append_nil, List.flatten_append, List.flatten_singleton]
    exact htext
  · obtain ⟨hanswers, hpiece⟩ := hfresh hnil
    simp [Cutting.read, hanswers, hpiece]

theorem follows_after (done : List (List Char)) (part : List Char) :
    Follows done part (.after done part) := by
  have hpart : ∀ (done : List (List Char)) (part : List Char),
      Follows done [] (.after done []) → Follows done part (.after done part) := by
    intro done part hdone
    induction part using List.reverseRecOn with
    | nil => exact hdone
    | append_singleton part c ih =>
      rw [Cutting.after_concat]
      exact ih.write c
  apply hpart
  induction done using List.reverseRecOn with
  | nil => exact .start
  | append_singleton done chunk ih =>
    rw [Cutting.after_read]
    exact (hpart done chunk ih).read

/-- What the reader answers chunk by chunk, line by line. -/
theorem flatMap_lines {chunks : List (List Char)} (hend : AtLineEnd chunks.flatten) :
    chunks.flatMap lines = (cutLines chunks).flatMap CutLine.answers := by
  obtain ⟨⟨h, hpart, _, hanswers⟩, ⟨g, htext, _⟩, _, hline, hfresh⟩ := follows_after chunks []
  rw [List.append_nil] at htext
  rw [htext] at hend
  obtain ⟨hnil, _⟩ := hfresh (eq_nil_of_atLineEnd hend hline)
  obtain ⟨rfl, _⟩ := List.append_eq_nil_iff.mp hpart.symm
  rw [hnil, List.append_nil, lines_nil, List.append_nil] at hanswers
  exact hanswers.symm

/-- What a single reading of the whole file answers, line by line. -/
theorem lines_flatten {chunks : List (List Char)} (hend : AtLineEnd chunks.flatten) :
    lines chunks.flatten = (cutLines chunks).map fun l => chomp l.line := by
  obtain ⟨_, ⟨g, htext, _, hlines⟩, _, hline, _⟩ := follows_after chunks []
  rw [List.append_nil] at htext
  rw [htext] at hend
  rw [htext, eq_nil_of_atLineEnd hend hline, List.append_nil, ← hlines]
  rfl

/-! ## The file up to one of its lines -/

theorem Cutting.finished_write (s : Cutting) (c : Char) : s.finished <+: (s.write c).finished := by
  unfold Cutting.write
  split
  · exact List.prefix_append _ _
  · exact List.prefix_refl _

theorem Cutting.finished_foldl_write (s : Cutting) (text : List Char) :
    s.finished <+: (text.foldl Cutting.write s).finished := by
  induction text generalizing s with
  | nil => exact List.prefix_refl _
  | cons c text ih => exact (s.finished_write c).trans (ih (s.write c))

theorem Cutting.finished_foldl_chunk (s : Cutting) (chunks : List (List Char)) :
    s.finished <+: (chunks.foldl Cutting.chunk s).finished := by
  induction chunks generalizing s with
  | nil => exact List.prefix_refl _
  | cons chunk chunks ih =>
    exact (s.finished_foldl_write chunk).trans (ih (s.chunk chunk))

/-- The lines of a file whose writing stopped earlier are the first of its lines. -/
theorem cutLines_stop (before : List (List Char)) (a b : List Char)
    (behind : List (List Char)) :
    cutLines (before ++ [a]) <+: cutLines (before ++ (a ++ b) :: behind) := by
  have hstop : cutLines (before ++ [a]) = (Cutting.after before a).finished := by
    rw [cutLines, Cutting.after_read]
    rfl
  have hgo : cutLines (before ++ (a ++ b) :: behind) =
      (behind.foldl Cutting.chunk
        (b.foldl Cutting.write (Cutting.after before a)).read).finished := by
    rw [cutLines, Cutting.after, List.foldl_nil, List.foldl_append, List.foldl_cons,
      Cutting.chunk, List.foldl_append]
    rfl
  rw [hstop, hgo]
  apply (Cutting.finished_foldl_write _ b).trans
  exact Cutting.finished_foldl_chunk (Cutting.read _) behind

/-- The writing that stops behind line `l`, and how it lies in the whole writing, of which the
chunks `done` and the part `part` of the next one are there. -/
structure StopsAt (done : List (List Char)) (part : List Char) (ls : List CutLine)
    (before : List (List Char)) (a : List Char) : Prop where
  lines : cutLines (before ++ [a]) = ls
  atLineEnd : AtLineEnd (before.flatten ++ a)
  within : (before = done ∧ a ≠ [] ∧ a <+: part) ∨
    ∃ b behind, done = before ++ (a ++ b) :: behind

theorem exists_stopsAt_after (done : List (List Char)) (part : List Char) (ls : List CutLine)
    (l : CutLine) (h : ls ++ [l] <+: (Cutting.after done part).finished) :
    ∃ before a, StopsAt done part (ls ++ [l]) before a := by
  have hpart : ∀ (done : List (List Char)) (part : List Char),
      (ls ++ [l] <+: (Cutting.after done []).finished →
        ∃ before a, StopsAt done [] (ls ++ [l]) before a) →
      ls ++ [l] <+: (Cutting.after done part).finished →
      ∃ before a, StopsAt done part (ls ++ [l]) before a := by
    intro done part hdone
    induction part using List.reverseRecOn with
    | nil => exact hdone
    | append_singleton part c ih =>
      intro h
      have earlier : ls ++ [l] <+: (Cutting.after done part).finished →
          ∃ before a, StopsAt done (part ++ [c]) (ls ++ [l]) before a := by
        intro h
        obtain ⟨before, a, hstop⟩ := ih h
        refine ⟨before, a, hstop.lines, hstop.atLineEnd, hstop.within.imp_left ?_⟩
        exact fun ⟨hd, hne, ha⟩ => ⟨hd, hne, ha.trans (List.prefix_append _ _)⟩
      rw [Cutting.after_concat, Cutting.write] at h
      split at h
      · next hc =>
        rcases List.prefix_concat_iff.mp h with heq | h
        · -- `l` ends here
          subst hc
          refine ⟨done, part ++ ['\n'], ?_, ?_, .inl ⟨rfl, by simp, List.prefix_refl _⟩⟩
          · rw [cutLines, Cutting.after_read, Cutting.after_concat, Cutting.write, if_pos rfl, heq]
            rfl
          · rw [← List.append_assoc]
            exact atLineEnd_newline _
        · exact earlier h
      · exact earlier h
  apply hpart done part ?_ h
  clear h
  induction done using List.reverseRecOn with
  | nil => exact fun h => by simp [Cutting.after, Cutting.start] at h
  | append_singleton done chunk ih =>
    intro h
    rw [Cutting.after_read] at h
    obtain ⟨before, a, hstop⟩ := hpart done chunk ih h
    refine ⟨before, a, hstop.lines, hstop.atLineEnd, .inr ?_⟩
    rcases hstop.within with ⟨rfl, _, b, rfl⟩ | ⟨b, behind, rfl⟩
    · exact ⟨b, [], rfl⟩
    · exact ⟨b, behind ++ [chunk], by simp⟩

/-- For each line of a file there is the writing that stops behind it. -/
theorem exists_stop {chunks : List (List Char)} {ls : List CutLine} {l : CutLine}
    (h : ls ++ [l] <+: cutLines chunks) :
    ∃ before a b behind, chunks = before ++ (a ++ b) :: behind ∧
      AtLineEnd (before.flatten ++ a) ∧ cutLines (before ++ [a]) = ls ++ [l] := by
  obtain ⟨before, a, hstop⟩ := exists_stopsAt_after chunks [] ls l h
  rcases hstop.within with ⟨_, hne, ha⟩ | ⟨b, behind, hchunks⟩
  · exact absurd (List.prefix_nil.mp ha) hne
  · exact ⟨before, a, b, behind, hchunks, hstop.atLineEnd, hstop.lines⟩

end Base
