import Jbm.Base.Cuts
import Jbm.Stream.History

/-!
# JVM events whose line is cut

`fill_queue` hands every line of the reader to the decoder and drops what the decoder refuses.
At the end of the file the reader answers an unterminated rest as a line, so a line that is only
partly written when `fill_queue` runs is decoded in pieces. Whether ingestion depends on the cuts
is therefore a question about one line at a time: do the pieces the reader answered of it decode
to the event of the line?
-/

set_option autoImplicit false

namespace Jbm

open Base

variable {decode : List Char → Option JvmEvent}

/-- A `fill_queue` call after each of the chunks appended to the file. -/
def fillChunks (decode : List Char → Option JvmEvent) (chunks : List (List Char))
    (queues : Filing JvmEvent.tid) : Filing JvmEvent.tid :=
  chunks.foldl (fun queues chunk => fillQueue decode chunk queues) queues

/-- The calls file the events of the chunks, each read by itself. -/
theorem fillChunks_eq (chunks : List (List Char)) (queues : Filing JvmEvent.tid) :
    fillChunks decode chunks queues = queues.pushAll (chunks.flatMap (eventsOf decode)) := by
  induction chunks generalizing queues with
  | nil => rfl
  | cons chunk chunks ih =>
    rw [List.flatMap_cons, Filing.pushAll_append, ← fillQueue_eq]
    exact ih _

/-- The chunks are ingested as one text would be: the queues are those of a single `fill_queue`
call on the whole, and each is continued by the thread's well-formed lines, in file order. -/
def IngestsWhole (decode : List Char → Option JvmEvent) (chunks : List (List Char))
    (queues : Filing JvmEvent.tid) : Prop :=
  fillChunks decode chunks queues = fillQueue decode chunks.flatten queues ∧
    ∀ tid, (fillChunks decode chunks queues).queue tid =
      queues.queue tid ++ ((lines chunks.flatten).filterMap decode).filter (·.tid = tid)

/-- The pieces of a line decode to exactly what the line decodes to. -/
def CutsSafely (decode : List Char → Option JvmEvent) (l : CutLine) : Prop :=
  l.answers.filterMap decode = (decode (chomp l.line)).toList

/-- The events of the pieces, and the events of the lines. -/
def piecesOf (decode : List Char → Option JvmEvent) (ls : List CutLine) : List JvmEvent :=
  ls.flatMap fun l => l.answers.filterMap decode

def wholesOf (decode : List Char → Option JvmEvent) (ls : List CutLine) : List JvmEvent :=
  ls.flatMap fun l => (decode (chomp l.line)).toList

/-- The two readings of a text that ends with a line compare as their lines do. -/
theorem ingestsWhole_iff {chunks : List (List Char)} {queues : Filing JvmEvent.tid}
    (hend : AtLineEnd chunks.flatten) : IngestsWhole decode chunks queues ↔
      ∀ tid, (piecesOf decode (cutLines chunks)).filter (·.tid = tid) =
        (wholesOf decode (cutLines chunks)).filter (·.tid = tid) := by
  have hpieces : chunks.flatMap (eventsOf decode) = piecesOf decode (cutLines chunks) := by
    rw [piecesOf, ← List.filterMap_flatMap, ← flatMap_lines hend, List.filterMap_flatMap]
    rfl
  have hwhole : eventsOf decode chunks.flatten = wholesOf decode (cutLines chunks) := by
    rw [eventsOf, lines_flatten hend, List.filterMap_map, List.filterMap_eq_flatMap_toList]
    rfl
  have hqueue : ∀ tid, (fillChunks decode chunks queues).queue tid =
      queues.queue tid ++ (piecesOf decode (cutLines chunks)).filter (·.tid = tid) := by
    intro tid
    rw [fillChunks_eq, hpieces, Filing.queue_pushAll]
  constructor
  · rintro ⟨_, hall⟩ tid
    have htid := hall tid
    rw [hqueue tid, List.append_cancel_left_eq] at htid
    exact htid.trans (congrArg (List.filter _) hwhole)
  · intro hall
    refine ⟨Filing.ext_queue fun tid => ?_, fun tid => ?_⟩
    · rw [hqueue tid, fillQueue_eq, Filing.queue_pushAll, hwhole, hall tid]
    · rw [hqueue tid, hall tid, ← hwhole]
      rfl

/-- A list that has, thread by thread, the events of an optional one is that one. -/
theorem eq_toList_of_filter {events : List JvmEvent} {x : Option JvmEvent}
    (h : ∀ tid, events.filter (·.tid = tid) = x.toList.filter (·.tid = tid)) :
    events = x.toList := by
  cases x with
  | none =>
    apply List.eq_nil_iff_forall_not_mem.mpr
    intro j hj
    have hmem : j ∈ events.filter (·.tid = j.tid) := List.mem_filter.mpr ⟨hj, by simp⟩
    rw [h j.tid] at hmem
    simp at hmem
  | some y =>
    have hall : ∀ j ∈ events, j.tid = y.tid := by
      intro j hj
      have hmem : j ∈ events.filter (·.tid = j.tid) := List.mem_filter.mpr ⟨hj, by simp⟩
      rw [h j.tid] at hmem
      obtain ⟨hjy, _⟩ := List.mem_filter.mp hmem
      rw [List.mem_singleton.mp hjy]
    have hself := h y.tid
    rw [List.filter_eq_self.mpr fun j hj => decide_eq_true (hall j hj)] at hself
    rw [hself]
    simp

/-- **Ingestion does not depend on the cuts**, for a file and for the file stopped at any of its
line ends, exactly when every line is cut safely. -/
theorem ingests_whole_iff {chunks : List (List Char)} {queues : Filing JvmEvent.tid} :
    (∀ before a b behind, chunks = before ++ (a ++ b) :: behind →
      AtLineEnd (before ++ [a]).flatten → IngestsWhole decode (before ++ [a]) queues) ↔
    ∀ l ∈ cutLines chunks, CutsSafely decode l := by
  constructor
  · intro hall l hl
    have hprefix : ∀ ls, ls <+: cutLines chunks → ∀ tid,
        (piecesOf decode ls).filter (·.tid = tid) = (wholesOf decode ls).filter (·.tid = tid) := by
      intro ls hls
      rcases List.eq_nil_or_concat ls with rfl | ⟨ls, l, rfl⟩
      · exact fun _ => rfl
      · rw [List.concat_eq_append] at hls ⊢
        obtain ⟨before, a, b, behind, hchunks, hend, hcut⟩ := exists_stop hls
        have hend' : AtLineEnd (before ++ [a]).flatten := by simpa using hend
        have hstop := (ingestsWhole_iff hend').mp (hall before a b behind hchunks hend')
        rwa [hcut] at hstop
    obtain ⟨ls, rest, hcut⟩ := List.append_of_mem hl
    have hls := hprefix ls (hcut ▸ List.prefix_append _ _)
    have hlast := hprefix (ls ++ [l]) ⟨rest, by rw [hcut]; simp⟩
    apply eq_toList_of_filter
    intro tid
    have htid := hlast tid
    rw [piecesOf, wholesOf, List.flatMap_append, List.flatMap_append, List.filter_append,
      List.filter_append, ← piecesOf, ← wholesOf, hls tid, List.append_cancel_left_eq,
      List.flatMap_singleton, List.flatMap_singleton] at htid
    exact htid
  · rintro hall before a b behind rfl hend
    rw [ingestsWhole_iff hend]
    have hsub : cutLines (before ++ [a]) ⊆ cutLines (before ++ (a ++ b) :: behind) :=
      (cutLines_stop before a b behind).subset
    have hpieces : piecesOf decode (cutLines (before ++ [a])) =
        wholesOf decode (cutLines (before ++ [a])) :=
      List.flatMap_congr fun l hl => hall l (hsub hl)
    rw [hpieces]
    exact fun _ => rfl

/-- The sample line is written in two chunks, cut inside. -/
theorem not_ingestsWhole_sampleLine :
    ¬ IngestsWhole sampleDecode [sampleLine.take 10, sampleLine.drop 10 ++ ['\n']] .empty := by
  rintro ⟨_, hqueue⟩
  exact absurd (hqueue 7) (by decide)

end Jbm
