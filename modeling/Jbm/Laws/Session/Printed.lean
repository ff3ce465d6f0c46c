import Jbm.Session.Report

/-!
# What the output says

The text `jbm` prints can be read back: two lists of reports with the same text show the same data,
report by report (`printReports_inj`). Neither the name of a thread nor a symbol is escaped, so this
rests on what the two can be: a name has at most 15 characters, too few to fake the text behind it,
and a symbol has no line break. Of a JVM event the text shows neither the thread nor the bytecode
indices, and its timestamp only as far as the format goes.
-/

set_option autoImplicit false

namespace Jbm

open Base

variable {r s : List Char}

/-! ## Frames -/

/-- The symbol fits on its line. -/
def OneLine (frame : UInt64 × String) : Prop := '\n' ∉ frame.2.toList

instance (frame : UInt64 × String) : Decidable (OneLine frame) :=
  inferInstanceAs (Decidable (_ ∉ _))

/-- The text cannot go on with a frame. -/
def NoFrame (r : List Char) : Prop := r.head? ≠ some ' '

theorem decimal_inj {c : Char} (hc : c ∉ digits) {m n : Nat}
    (h : decimal m ++ c :: r = decimal n ++ c :: s) : m = n ∧ r = s :=
  numeral_inj (by decide) (by decide) hc h

/-- A frame with the end of its line. -/
theorem frameText_inj {indent : List Char} {i : Nat} {f g : UInt64 × String} (hf : OneLine f)
    (hg : OneLine g) (h : frameText indent i f ++ '\n' :: r = frameText indent i g ++ '\n' :: s) :
    f = g ∧ r = s := by
  have hmark : "] ".toList = [']', ' '] := rfl
  simp only [frameText, hmark, List.append_assoc, List.cons_append, List.nil_append,
    List.append_cancel_left_eq] at h
  obtain ⟨haddress, h⟩ := numeral_inj (by decide) (by decide) (by decide) h
  obtain ⟨hsymbol, hrest⟩ :=
    word_inj (List.count_eq_zero.mpr hf) (List.count_eq_zero.mpr hg) (List.cons_eq_cons.mp h).2
  exact ⟨Prod.ext (UInt64.toNat_inj.mp haddress) (String.toList_inj.mp hsymbol), hrest⟩

/-- Frames, a line each. -/
theorem items_frames : Items OneLine (fun _ => True) NoFrame
    (fun i frame => frameText "  ".toList i frame ++ ['\n']) where
  item hf hg _ _ h := by
    simp only [List.append_assoc, List.singleton_append] at h
    exact frameText_inj hf hg h
  goes_on _ := trivial
  ends _ := trivial
  tells := by simp [NoFrame, frameText]

/-- The stack of a JVM event with the line break of `println!`. -/
theorem jvmStack_line (frames : List (UInt64 × String)) :
    jvmStack frames ++ '\n' :: r = if frames = [] then '\n' :: r else nativeStack frames ++ r := by
  split
  · next h => rw [h]; rfl
  · next h => rw [nativeStack, ← numbered_separated _ _ h, jvmStack, List.append_assoc]; rfl

/-- A stack of at least one frame begins like a frame. -/
theorem nativeStack_frame {frames : List (UInt64 × String)} (h : frames ≠ []) :
    ¬ NoFrame (nativeStack frames ++ r) := by
  cases frames with
  | nil => exact absurd rfl h
  | cons f frames =>
    rw [nativeStack, numbered_cons, List.append_assoc]
    exact items_frames.tells

theorem jvmStack_inj {frames frames' : List (UInt64 × String)} (hf : ∀ f ∈ frames, OneLine f)
    (hf' : ∀ f ∈ frames', OneLine f) (hr : NoFrame r) (hs : NoFrame s)
    (h : jvmStack frames ++ '\n' :: r = jvmStack frames' ++ '\n' :: s) :
    frames = frames' ∧ r = s := by
  have hbreak : ∀ t : List Char, NoFrame ('\n' :: t) := by simp [NoFrame]
  rw [jvmStack_line, jvmStack_line] at h
  split at h
  · next hnil =>
    split at h
    · next hnil' =>
      exact ⟨hnil.trans hnil'.symm, (List.cons_eq_cons.mp h).2⟩
    · next hne' => exact absurd (h ▸ hbreak r) (nativeStack_frame hne')
  · next hne =>
    split at h
    · exact absurd (h ▸ hbreak s) (nativeStack_frame hne)
    · exact items_frames.inj hf hf' hr hs h

/-! ## The first line -/

/-- The longest name, in characters: `TASK_COMM_LEN` bytes with a NUL among them. -/
def commMax : Nat := taskCommLen - 1

/-- Behind a name comes no closing bracket as near as a longer name could reach. -/
theorem no_bracket (micros : Nat) (r : List Char) :
    ')' ∉ (", DURATION: ".toList ++ (decimal micros ++ (" us\n".toList ++ r))).take commMax := by
  intro h
  have hlen : commMax ≤ (", DURATION: ".toList ++ (decimal micros ++ " us\n".toList)).length := by
    have hpos : 0 < (decimal micros).length := Nat.length_toDigits_pos
    have hfront : ", DURATION: ".toList.length = 12 := rfl
    have hback : " us\n".toList.length = 4 := rfl
    have hmax : commMax = 15 := rfl
    rw [List.length_append, List.length_append]
    omega
  rw [← List.append_assoc (decimal micros), ← List.append_assoc,
    List.take_append_of_le_length hlen] at h
  rcases List.mem_append.mp (List.mem_of_mem_take h) with h | h
  · exact absurd h (by decide)
  · rcases List.mem_append.mp h with h | h
    · exact absurd (mem_digits (by decide) (by decide) h) (by decide)
    · exact absurd h (by decide)

/-- What the first line shows of an event. -/
structure SameHead (b b' : BpfEvent) : Prop where
  timestamp : b.timestamp = b'.timestamp
  pid : b.pid = b'.pid
  tid : b.tid = b'.tid
  comm : b.comm = b'.comm
  micros : b.duration.asMicros = b'.duration.asMicros

theorem reportHead_inj {time time' : List Char} {b b' : BpfEvent} (htime : time.count ' ' = 1)
    (htime' : time'.count ' ' = 1) (hb : b.comm.toList.length ≤ commMax)
    (hb' : b'.comm.toList.length ≤ commMax)
    (h : reportHead time b ++ r = reportHead time' b' ++ s) : SameHead b b' ∧ r = s := by
  have hspace : " ".toList = [' '] := rfl
  have hpid : " PID: ".toList = ' ' :: "PID: ".toList := rfl
  have htid : ", TID: ".toList = ',' :: " TID: ".toList := rfl
  have hcomm : " (".toList = [' ', '('] := rfl
  have hduration : "), DURATION: ".toList = ')' :: ", DURATION: ".toList := rfl
  have hus : " us\n".toList = ' ' :: "us\n".toList := rfl
  simp only [reportHead, hspace, hpid, htid, hcomm, hduration, List.append_assoc, List.cons_append,
    List.nil_append, List.append_cancel_left_eq] at h
  obtain ⟨_, h⟩ := word_inj htime htime' h
  obtain ⟨htimestamp, h⟩ := decimal_inj (by decide) h
  obtain ⟨hpid', h⟩ := decimal_inj (by decide) (List.append_cancel_left h)
  obtain ⟨htid', h⟩ := decimal_inj (by decide) (List.append_cancel_left h)
  obtain ⟨hcomm', h⟩ :=
    short_inj hb hb' (no_bracket _ _) (no_bracket _ _) (List.cons_eq_cons.mp h).2
  rw [hus] at h
  obtain ⟨hmicros, h⟩ := decimal_inj (by decide) (List.append_cancel_left h)
  exact ⟨⟨UInt64.toNat_inj.mp htimestamp, UInt32.toNat_inj.mp hpid', UInt32.toNat_inj.mp htid',
    String.toList_inj.mp hcomm', hmicros⟩, List.append_cancel_left h⟩

/-! ## Reports -/

/-- What every formatted time is: a date and a time of day with a space in between. -/
structure TimeFormat (formatTime : UInt64 → Option (List Char)) : Prop where
  one_space : ∀ timestamp time, formatTime timestamp = some time → time.count ' ' = 1
  no_bracket : ∀ timestamp time, formatTime timestamp = some time → ')' ∉ time

/-- The data a report shows. -/
structure Shown where
  timestamp : UInt64
  pid : UInt32
  tid : UInt32
  comm : String
  micros : Nat
  stacktrace : List (UInt64 × String)
  jvm : Option (List Char × List (UInt64 × String))
  deriving DecidableEq

section Reports

variable {formatTime : UInt64 → Option (List Char)}

/-- What is shown of the JVM event of a report. -/
def shownJvm (formatTime : UInt64 → Option (List Char)) (j : JvmEvent) :
    List Char × List (UInt64 × String) :=
  ((formatTime j.timestamp).getD [], j.frames.map JvmFrame.printed)

/-- The data behind the text of a report. -/
def shown (formatTime : UInt64 → Option (List Char)) (p : Pair) : Shown where
  timestamp := p.1.timestamp
  pid := p.1.pid
  tid := p.1.tid
  comm := p.1.comm
  micros := p.1.duration.asMicros
  stacktrace := p.1.stacktrace
  jvm := p.2.map (shownJvm formatTime)

/-- A report whose name and symbols are what they should be. -/
structure Legible (p : Pair) : Prop where
  comm : p.1.comm.toList.length ≤ commMax
  native : ∀ f ∈ p.1.stacktrace, OneLine f
  jvm : ∀ j ∈ p.2, ∀ f ∈ j.frames.map JvmFrame.printed, OneLine f

/-- The text of a report behind its native stack. -/
inductive JvmPart (formatTime : UInt64 → Option (List Char)) : Option JvmEvent → List Char → Prop
  | without : JvmPart formatTime none []
  | stack {j : JvmEvent} {took : List Char} : formatTime j.timestamp = some took →
      JvmPart formatTime (some j) (jvmHead took ++ jvmStack (j.frames.map JvmFrame.printed))

/-- A report and its parts. -/
theorem report_parts {p : Pair} {out : List Char} (h : report formatTime p = some out) :
    ∃ time tail, formatTime p.1.timestamp = some time ∧ JvmPart formatTime p.2 tail ∧
      out = reportHead time p.1 ++
        ("Native Stack:\n".toList ++ (nativeStack p.1.stacktrace ++ tail)) := by
  obtain ⟨time, htime, h⟩ := Option.bind_eq_some_iff.mp h
  obtain ⟨b, jvm⟩ := p
  cases jvm with
  | none =>
    cases h
    exact ⟨time, [], htime, .without, by rw [List.append_nil]⟩
  | some j =>
    obtain ⟨took, htook, h⟩ := Option.bind_eq_some_iff.mp h
    obtain rfl := Option.some.inj h
    exact ⟨time, _, htime, .stack htook, by simp only [List.append_assoc]⟩

/-- What follows a native stack is not a frame. -/
theorem JvmPart.noFrame {jvm : Option JvmEvent} {tail : List Char}
    (h : JvmPart formatTime jvm tail) : NoFrame (tail ++ '\n' :: r) := by
  cases h with
  | without => simp [NoFrame]
  | stack _ => simp [NoFrame, jvmHead, List.replicate_succ]

theorem JvmPart.inj (hformat : TimeFormat formatTime) {jvm jvm' : Option JvmEvent}
    {tail tail' : List Char} (h : JvmPart formatTime jvm tail) (h' : JvmPart formatTime jvm' tail')
    (hj : ∀ j ∈ jvm, ∀ f ∈ j.frames.map JvmFrame.printed, OneLine f)
    (hj' : ∀ j ∈ jvm', ∀ f ∈ j.frames.map JvmFrame.printed, OneLine f) (hr : NoFrame r)
    (hs : NoFrame s) (heq : tail ++ '\n' :: r = tail' ++ '\n' :: s) :
    jvm.map (shownJvm formatTime) = jvm'.map (shownJvm formatTime) ∧ r = s := by
  have hdash : ∀ (took t : List Char), (jvmHead took ++ t).head? = some '-' := by
    simp [jvmHead, List.replicate_succ]
  have hclose : "):\n".toList = ')' :: ":\n".toList := rfl
  cases h with
  | without =>
    cases h' with
    | without => exact ⟨rfl, (List.cons_eq_cons.mp heq).2⟩
    | stack _ =>
      rw [List.append_assoc] at heq
      have hhead := congrArg List.head? heq
      rw [hdash] at hhead
      cases hhead
  | @stack j took htook =>
    cases h' with
    | without =>
      rw [List.append_assoc] at heq
      have hhead := congrArg List.head? heq
      rw [hdash] at hhead
      cases hhead
    | @stack j' took' htook' =>
      simp only [jvmHead, hclose, List.append_assoc, List.cons_append, List.append_cancel_left_eq,
        List.cons.injEq, true_and] at heq
      obtain ⟨hsame, hrest⟩ :=
        word_inj (List.count_eq_zero.mpr (hformat.no_bracket _ _ htook))
          (List.count_eq_zero.mpr (hformat.no_bracket _ _ htook')) heq
      obtain ⟨hframes, hend⟩ := jvmStack_inj (hj j rfl) (hj' j' rfl) hr hs
        (List.append_cancel_left hrest)
      exact ⟨by simp [shownJvm, htook, htook', hsame, hframes], hend⟩

/-- The text of a report says what it shows, and where it ends. -/
theorem report_inj (hformat : TimeFormat formatTime) {p q : Pair} {out out' : List Char}
    (hp : Legible p) (hq : Legible q) (hout : report formatTime p = some out)
    (hout' : report formatTime q = some out') (hr : NoFrame r) (hs : NoFrame s)
    (h : out ++ '\n' :: r = out' ++ '\n' :: s) :
    shown formatTime p = shown formatTime q ∧ r = s := by
  obtain ⟨time, tail, htime, htail, rfl⟩ := report_parts hout
  obtain ⟨time', tail', htime', htail', rfl⟩ := report_parts hout'
  simp only [List.append_assoc] at h
  obtain ⟨hhead, h⟩ := reportHead_inj (hformat.one_space _ _ htime) (hformat.one_space _ _ htime')
    hp.comm hq.comm h
  obtain ⟨hnative, h⟩ := items_frames.inj hp.native hq.native htail.noFrame htail'.noFrame
    (List.append_cancel_left h)
  obtain ⟨hjvm, hrest⟩ := htail.inj hformat htail' hp.jvm hq.jvm hr hs h
  refine ⟨?_, hrest⟩
  simp only [shown, hhead.timestamp, hhead.pid, hhead.tid, hhead.comm, hhead.micros, hnative, hjvm]

/-- A report begins like one. -/
theorem head_report {p : Pair} {out : List Char} (h : report formatTime p = some out) :
    (out ++ r).head? = some '=' := by
  obtain ⟨time, tail, _, _, rfl⟩ := report_parts h
  rfl

theorem printReports_cons {p : Pair} {ps : List Pair} {text : List Char}
    (h : printReports formatTime (p :: ps) = some text) :
    ∃ out rest, report formatTime p = some out ∧ printReports formatTime ps = some rest ∧
      text = out ++ '\n' :: rest := by
  obtain ⟨out, hout, h⟩ := Option.bind_eq_some_iff.mp h
  obtain ⟨rest, hrest, h⟩ := Option.bind_eq_some_iff.mp h
  cases h
  exact ⟨out, rest, hout, hrest, rfl⟩

/-- What follows a report is another or nothing. -/
theorem noFrame_printReports {ps : List Pair} {text : List Char}
    (h : printReports formatTime ps = some text) : NoFrame text := by
  cases ps with
  | nil =>
    cases h
    simp [NoFrame]
  | cons p ps =>
    obtain ⟨out, rest, hout, _, rfl⟩ := printReports_cons h
    rw [NoFrame, head_report hout]
    decide

/-- The text of some reports says what they show. -/
theorem printReports_inj (hformat : TimeFormat formatTime) {ps qs : List Pair} {text : List Char}
    (hps : ∀ p ∈ ps, Legible p) (hqs : ∀ q ∈ qs, Legible q)
    (htext : printReports formatTime ps = some text)
    (htext' : printReports formatTime qs = some text) :
    ps.map (shown formatTime) = qs.map (shown formatTime) := by
  induction ps generalizing qs text with
  | nil =>
    cases htext
    cases qs with
    | nil => rfl
    | cons q qs =>
      obtain ⟨out, rest, _, _, h⟩ := printReports_cons htext'
      exact absurd h.symm (by simp)
  | cons p ps ih =>
    obtain ⟨out, rest, hout, hrest, rfl⟩ := printReports_cons htext
    cases qs with
    | nil => exact absurd (Option.some.inj htext') (by simp)
    | cons q qs =>
      obtain ⟨out', rest', hout', hrest', h⟩ := printReports_cons htext'
      obtain ⟨hshown, rfl⟩ := report_inj hformat (hps p List.mem_cons_self)
        (hqs q List.mem_cons_self) hout hout' (noFrame_printReports hrest)
        (noFrame_printReports hrest') h
      rw [List.map_cons, List.map_cons, hshown,
        ih (fun p hp => hps p (List.mem_cons_of_mem _ hp))
          (fun q hq => hqs q (List.mem_cons_of_mem _ hq)) hrest hrest']

end Reports

/-! ## A trashed event -/

/-- A symbol followed by what stands in front of the symbol of frame 1. -/
def runOn (symbol : String) (address : UInt64) (next : String) : String :=
  symbol ++ String.ofList (frameText [] 1 (address, next))

/-- The text of a trashed event has its first two frames on one line, so it does not say where the
symbol of the first ends. The text of a report does (`jvmStack_inj`). -/
theorem trashText_runOn (timestamp a b c : UInt64) (tid : UInt32) (x y z : String)
    (frames : List JvmFrame) :
    trashText ⟨timestamp, tid, ⟨0, a, x⟩ :: ⟨0, b, runOn y c z⟩ :: frames⟩ =
      trashText ⟨timestamp, tid, ⟨0, a, runOn x b y⟩ :: ⟨0, c, z⟩ :: frames⟩ := by
  have hsymbol : ∀ (i : Nat) (symbol next : String) (address next' : UInt64),
      frameText [] i (address, runOn symbol next' next) =
        frameText [] i (address, symbol) ++ frameText [] 1 (next', next) := by
    intro i symbol next address next'
    simp only [frameText, runOn, String.toList_append, String.toList_ofList, List.append_assoc]
  unfold trashText
  simp only [List.map_cons, JvmFrame.printed, numbered_cons]
  rw [hsymbol, hsymbol]
  simp only [if_true, List.append_nil, List.append_assoc]

end Jbm
