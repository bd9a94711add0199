import Devkit.Library.EndedLines
import Mathlib.Data.List.DropRight

/-!
# The tail of a task's output

A pump copies an output stream and records its lines in a tail that keeps the last ones. It reads the stream in pieces
and holds the bytes that no newline follows yet, unless they are more than a line may have: then it records them as
they are and holds nothing. What it records is one line for each line of the output unless a piece ends that far into
a line that goes on.
-/

namespace Devkit.Ports

open Devkit.Library

/-- How many trailing output lines a record keeps. -/
def tailLines : ℕ := 100

/-- A line longer than this is cut. -/
def maxLineBytes : ℕ := 4096

/-- The byte that ends a line. -/
def newline : UInt8 := 10

/-- The byte continues a character. -/
def isContinuation (byte : UInt8) : Bool := 0x80 ≤ byte && byte ≤ 0xBF

/-- How many bytes the character has that a byte starts, none for a byte that starts none. -/
def characterWidth (lead : UInt8) : ℕ :=
  if lead < 0x80 then 1
  else if 0xC2 ≤ lead && lead ≤ 0xDF then 2
  else if 0xE0 ≤ lead && lead ≤ 0xEF then 3
  else if 0xF0 ≤ lead && lead ≤ 0xF4 then 4
  else 0

/-- The byte may come second after the one that starts a character: no overlong form, no surrogate, nothing past the
last character. -/
def maySecond (lead second : UInt8) : Bool :=
  if lead = 0xE0 then 0xA0 ≤ second && second ≤ 0xBF
  else if lead = 0xED then 0x80 ≤ second && second ≤ 0x9F
  else if lead = 0xF0 then 0x90 ≤ second && second ≤ 0xBF
  else if lead = 0xF4 then 0x80 ≤ second && second ≤ 0x8F
  else isContinuation second

/-- How many of the bytes after the one that starts a character belong to it. -/
def belonging (lead : UInt8) : List UInt8 → ℕ
  | [] => 0
  | second :: more =>
    if 2 ≤ characterWidth lead && maySecond lead second then
      1 + ((more.take (characterWidth lead - 2)).takeWhile isContinuation).length
    else 0

/-- The character of a whole sequence of bytes. -/
def characterOf (lead : UInt8) (more : List UInt8) : Char :=
  let first := match more.length with
    | 0 => lead.toNat
    | 1 => lead.toNat % 32
    | 2 => lead.toNat % 16
    | _ => lead.toNat % 8
  Char.ofNat (more.foldl (fun code byte => code * 64 + byte.toNat % 64) first)

/-- The text of some bytes, each longest part of a character that is not whole replaced by one mark. -/
def fromUtf8Lossy : List UInt8 → List Char
  | [] => []
  | lead :: bytes =>
    (if belonging lead bytes + 1 = characterWidth lead then characterOf lead (bytes.take (belonging lead bytes))
      else Char.ofNat 0xFFFD) :: fromUtf8Lossy (bytes.drop (belonging lead bytes))
termination_by bytes => bytes.length
decreasing_by
  rw [List.length_drop, List.length_cons]
  omega

/-- The tail of the output streams of a task: the last lines, and whether a stream is captured at all. -/
@[ext]
structure TailInner where
  lines : List String
  captured : Bool
  bounded : lines.length ≤ tailLines
deriving DecidableEq

namespace TailInner

/-- A tail that nothing is recorded in yet. -/
def new : TailInner := ⟨[], false, Nat.zero_le tailLines⟩

/-- The text recorded for a line: what it starts with, up to the cut, without carriage returns at its end. -/
def textOf (bytes : List UInt8) : String :=
  String.ofList ((fromUtf8Lossy (bytes.take maxLineBytes)).rdropWhile fun c => c == '\r' || c == '\n')

/-- Record a line, dropping the first one of a full tail. -/
def push (tail : TailInner) (bytes : List UInt8) : TailInner where
  lines := (if tail.lines.length = tailLines then tail.lines.tail else tail.lines) ++ [textOf bytes]
  captured := tail.captured
  bounded := by
    have hbounded := tail.bounded
    have hpositive : 0 < tailLines := by decide
    rw [List.length_append, List.length_singleton]
    split
    · rw [List.length_tail]
      omega
    · omega

/-- Note that a stream is captured. -/
def markCaptured (tail : TailInner) : TailInner := { tail with captured := true }

/-- The captured lines, when a stream was captured. -/
def captures (tail : TailInner) : Option (List String) := if tail.captured then some tail.lines else none

end TailInner

/-- What a read gives: some bytes, none at the end of the stream. -/
inductive Read
  | bytes (bytes : List UInt8)
  | interrupted
  | failed
deriving DecidableEq

/-- Take the lines that a newline ends from the bytes held. -/
def takeLines (held : List UInt8) : List (List UInt8) × List UInt8 :=
  match _hposition : held.findIdx? (· == newline) with
  | some i => (held.take i :: (takeLines (held.drop (i + 1))).1, (takeLines (held.drop (i + 1))).2)
  | none => ([], held)
termination_by held.length
decreasing_by
  all_goals
    obtain ⟨hlt, _⟩ := List.findIdx?_eq_some_iff_getElem.mp _hposition
    rw [List.length_drop]
    omega

/-- What is left is recorded at the end of the stream. -/
def flush (held : List UInt8) : List (List UInt8) := if held.isEmpty then [] else [held]

/-- The bytes that a pump writes and the lines that it records, in order, from the bytes it holds. -/
def pumpFrom (held : List UInt8) : List Read → List UInt8 × List (List UInt8)
  | [] => ([], flush held)
  | .interrupted :: reads => pumpFrom held reads
  | .failed :: _ => ([], flush held)
  | .bytes piece :: reads =>
    if piece.isEmpty then ([], flush held)
    else
      let (ended, left) := takeLines (held ++ piece)
      if maxLineBytes < left.length then
        let (written, recorded) := pumpFrom [] reads
        (piece ++ written, ended ++ left :: recorded)
      else
        let (written, recorded) := pumpFrom left reads
        (piece ++ written, ended ++ recorded)

/-- Copy a stream, keeping its lines in the tail: the tail after it and the bytes written. -/
def pump (tail : TailInner) (reads : List Read) : TailInner × List UInt8 :=
  ((pumpFrom [] reads).2.foldl TailInner.push tail.markCaptured, (pumpFrom [] reads).1)

/-- The bytes that the reads give before the stream ends or one fails. -/
def received : List Read → List UInt8
  | [] => []
  | .interrupted :: reads => received reads
  | .failed :: _ => []
  | .bytes piece :: reads => if piece.isEmpty then [] else piece ++ received reads

/-- A piece ends further than a line may go into a line that the stream goes on with, some bytes held before it. -/
def OverrunsFrom (held : List UInt8) (reads : List Read) : Prop :=
  ∃ before after, reads = before ++ after ∧ received before ≠ received reads ∧
    maxLineBytes < sinceLast newline (held ++ received before)

/-- A piece ends further than a line may go into a line that the stream goes on with. -/
def Overruns (reads : List Read) : Prop := OverrunsFrom [] reads

/-- The texts that a pump of the reads records, in order. -/
def recorded (reads : List Read) : List String := (pumpFrom [] reads).2.map TailInner.textOf

/-- The texts of the lines of an output, each cut. -/
def lineTexts (output : List UInt8) : List String := (linesOf newline output).map TailInner.textOf

/-- The lines taken are those that a newline ends. -/
theorem takeLines_eq (held : List UInt8) : takeLines held = cutLines newline held := by
  fun_induction takeLines held with
  | case1 held i hposition ih =>
    obtain ⟨hlt, hi, hbefore⟩ := List.findIdx?_eq_some_iff_getElem.mp hposition
    have hsplit : held = held.take i ++ newline :: held.drop (i + 1) := by
      rw [← eq_of_beq hi, List.getElem_cons_drop, List.take_append_drop]
    have hline : newline ∉ held.take i := by
      intro hmem
      obtain ⟨j, hj, heq⟩ := List.mem_iff_getElem.mp hmem
      rw [List.length_take] at hj
      rw [List.getElem_take] at heq
      exact hbefore j (by omega) (beq_iff_eq.mpr heq)
    rw [ih]
    conv => rhs; rw [hsplit, cutLines_append_cons hline]
  | case2 held hposition =>
    rw [List.findIdx?_eq_none_iff] at hposition
    rw [cutLines_of_notMem]
    intro hmem
    exact Bool.noConfusion ((hposition newline hmem).symm.trans (beq_self_eq_true newline))

/-- A pump writes what it receives. -/
theorem pumpFrom_fst (held : List UInt8) (reads : List Read) : (pumpFrom held reads).1 = received reads := by
  induction reads generalizing held with
  | nil => rfl
  | cons read reads ih =>
    cases read with
    | interrupted => exact ih held
    | failed => rfl
    | bytes piece =>
      rw [pumpFrom, received]
      split
      · rfl
      · dsimp only
        split
        · exact congrArg (piece ++ ·) (ih [])
        · exact congrArg (piece ++ ·) (ih _)

/-- More reads receive more. -/
theorem received_isPrefix (before after : List Read) : received before <+: received (before ++ after) := by
  induction before with
  | nil => exact List.nil_prefix
  | cons read before ih =>
    cases read with
    | interrupted => exact ih
    | failed => exact List.prefix_rfl
    | bytes piece =>
      rw [List.cons_append, received, received]
      split
      · exact List.prefix_rfl
      · exact (List.prefix_append_right_inj piece).mpr ih

section Overrun

variable {held piece : List UInt8} {reads : List Read}

/-- Reads that receive nothing more end nowhere in a line that goes on. -/
theorem not_overrunsFrom (h : received reads = []) : ¬ OverrunsFrom held reads := by
  intro hover
  obtain ⟨before, after, hreads, hmore, _⟩ := hover
  have hprefix := received_isPrefix before after
  rw [← hreads, h] at hprefix
  rw [h] at hmore
  exact hmore (List.prefix_nil.mp hprefix)

theorem overrunsFrom_interrupted : OverrunsFrom held (.interrupted :: reads) ↔ OverrunsFrom held reads := by
  constructor
  · intro hover
    obtain ⟨before, after, hreads, hmore, hlong⟩ := hover
    cases before with
    | nil => exact ⟨[], reads, rfl, hmore, hlong⟩
    | cons read before =>
      obtain ⟨rfl, rfl⟩ := List.cons.inj hreads
      exact ⟨before, after, rfl, hmore, hlong⟩
  · intro hover
    obtain ⟨before, after, hreads, hmore, hlong⟩ := hover
    exact ⟨.interrupted :: before, after, congrArg _ hreads, hmore, hlong⟩

/-- While the bytes held fit a line, only the reads after the first piece can end too far. -/
theorem overrunsFrom_bytes (hpiece : piece.isEmpty = false) (hfits : sinceLast newline held ≤ maxLineBytes) :
    OverrunsFrom held (.bytes piece :: reads) ↔ OverrunsFrom (held ++ piece) reads := by
  have hreceived : ∀ reads, received (.bytes piece :: reads) = piece ++ received reads := by
    intro reads
    rw [received, hpiece]
    rfl
  constructor
  · intro hover
    obtain ⟨before, after, hreads, hmore, hlong⟩ := hover
    cases before with
    | nil =>
      rw [received, List.append_nil] at hlong
      omega
    | cons read before =>
      obtain ⟨rfl, rfl⟩ := List.cons.inj hreads
      rw [hreceived, hreceived] at hmore
      rw [hreceived, ← List.append_assoc] at hlong
      exact ⟨before, after, rfl, fun heq => hmore (congrArg _ heq), hlong⟩
  · intro hover
    obtain ⟨before, after, hreads, hmore, hlong⟩ := hover
    refine ⟨.bytes piece :: before, after, congrArg _ hreads, ?_, ?_⟩
    · rw [hreceived, hreceived]
      exact fun heq => hmore (List.append_cancel_left heq)
    · rw [hreceived, ← List.append_assoc]
      exact hlong

/-- Only what follows the last newline of the bytes before matters. -/
theorem overrunsFrom_cutLines : OverrunsFrom held reads ↔ OverrunsFrom (cutLines newline held).2 reads := by
  simp only [OverrunsFrom, sinceLast_append newline held]

/-- What is left at the end of the stream is recorded as its last line. -/
theorem flush_eq (hheld : newline ∉ held) : flush held = linesOf newline held := by
  rw [linesOf_of_notMem hheld, flush]
  simp only [List.isEmpty_iff]

/-- From held bytes that fit a line, the reads record the lines of the output, or one ends too far into a line that
goes on and there are more recorded than the output has. -/
theorem pumpFrom_snd (hheld : newline ∉ held) (hfits : held.length ≤ maxLineBytes) :
    (¬ OverrunsFrom held reads ∧ (pumpFrom held reads).2 = linesOf newline (held ++ received reads)) ∨
      (OverrunsFrom held reads ∧
        (linesOf newline (held ++ received reads)).length < (pumpFrom held reads).2.length) := by
  induction reads generalizing held with
  | nil =>
    refine Or.inl ⟨not_overrunsFrom rfl, ?_⟩
    rw [received, List.append_nil]
    exact flush_eq hheld
  | cons read reads ih =>
    cases read with
    | interrupted =>
      rw [overrunsFrom_interrupted]
      exact ih hheld hfits
    | failed =>
      refine Or.inl ⟨not_overrunsFrom rfl, ?_⟩
      rw [received, List.append_nil]
      exact flush_eq hheld
    | bytes piece =>
      cases hpiece : piece.isEmpty with
      | true =>
        have hreceived : received (.bytes piece :: reads) = [] := by rw [received, hpiece]; rfl
        have hrecorded : pumpFrom held (.bytes piece :: reads) = ([], flush held) := by rw [pumpFrom, hpiece]; rfl
        rw [hreceived, hrecorded, List.append_nil]
        exact Or.inl ⟨not_overrunsFrom hreceived, flush_eq hheld⟩
      | false =>
        have hreceived : received (.bytes piece :: reads) = piece ++ received reads := by rw [received, hpiece]; rfl
        have hsince : sinceLast newline held ≤ maxLineBytes := by
          rw [sinceLast, cutLines_of_notMem hheld]
          exact hfits
        have hleft := notMem_cutLines_snd newline (held ++ piece)
        rw [overrunsFrom_bytes hpiece hsince, overrunsFrom_cutLines, hreceived, ← List.append_assoc, linesOf_append,
          pumpFrom, hpiece, takeLines_eq]
        dsimp only
        rw [if_neg Bool.false_ne_true]
        split
        · rename_i hlong
          -- The bytes left are recorded as a line: more of that line may follow, or the stream is over.
          have hsome : (cutLines newline (held ++ piece)).2 ≠ [] := by
            intro hnil
            rw [hnil] at hlong
            exact Nat.not_lt_zero _ hlong
          by_cases hmore : received reads = []
          · refine Or.inl ⟨not_overrunsFrom hmore, ?_⟩
            obtain ⟨_, hrest⟩ := (ih List.not_mem_nil (Nat.zero_le _)).resolve_right fun hover =>
              not_overrunsFrom hmore hover.1
            dsimp only
            rw [hrest, hmore, List.append_nil, List.append_nil, linesOf_of_notMem hleft, if_neg hsome]
            rfl
          · have hover : OverrunsFrom (cutLines newline (held ++ piece)).2 reads := by
              refine ⟨[], reads, rfl, Ne.symm hmore, ?_⟩
              rw [received, List.append_nil, sinceLast, cutLines_of_notMem hleft]
              exact hlong
            have hrest : (linesOf newline (received reads)).length ≤ (pumpFrom [] reads).2.length := by
              cases @ih [] List.not_mem_nil (Nat.zero_le _) with
              | inl hwhole => exact Nat.le_of_eq (congrArg List.length hwhole.2.symm)
              | inr hbroken => exact Nat.le_of_lt hbroken.2
            refine Or.inr ⟨hover, ?_⟩
            simp only [List.length_append, List.length_cons, length_linesOf_append hleft hmore]
            omega
        · rename_i hshort
          cases ih hleft (Nat.le_of_not_lt hshort) with
          | inl hwhole => exact Or.inl ⟨hwhole.1, congrArg (_ ++ ·) hwhole.2⟩
          | inr hbroken =>
            refine Or.inr ⟨hbroken.1, ?_⟩
            simp only [List.length_append]
            omega

/-- Reads of an output that fits a line end nowhere too far. -/
theorem not_overruns_of_length_le (h : (received reads).length ≤ maxLineBytes) : ¬ Overruns reads := by
  intro hover
  obtain ⟨before, after, rfl, _, hlong⟩ := hover
  have hsince := sinceLast_le_length newline ([] ++ received before)
  have hprefix := (received_isPrefix before after).length_le
  rw [List.nil_append] at hsince hlong
  omega

/-- The reads record one line for each line of the output, each cut, exactly when none ends too far into a line that
goes on. -/
theorem recorded_eq_iff (reads : List Read) : recorded reads = lineTexts (received reads) ↔ ¬ Overruns reads := by
  cases @pumpFrom_snd [] reads List.not_mem_nil (Nat.zero_le _) with
  | inl hwhole => exact iff_of_true (congrArg (List.map TailInner.textOf) hwhole.2) hwhole.1
  | inr hbroken =>
    refine iff_of_false (fun heq => ?_) (absurd hbroken.1)
    have hlength := congrArg List.length heq
    rw [recorded, lineTexts, List.length_map, List.length_map] at hlength
    exact Nat.ne_of_gt hbroken.2 hlength

end Overrun

/-- What is kept of the last elements and more after them is what is kept of all. -/
theorem rtake_rtake_append (list more : List String) (n : ℕ) : (list.rtake n ++ more).rtake n = (list ++ more).rtake n := by
  rw [List.rtake, List.rtake, List.rtake, List.length_append, List.length_append, List.length_drop]
  rw [← List.drop_append_of_le_length (by omega), List.drop_drop]
  congr 1
  omega

/-- Recording a line puts its text after the ones before, and keeps the last ones. -/
theorem lines_push (tail : TailInner) (bytes : List UInt8) :
    (tail.push bytes).lines = (tail.lines ++ [TailInner.textOf bytes]).rtake tailLines := by
  have hbounded := tail.bounded
  have hpositive : 0 < tailLines := by decide
  unfold TailInner.push
  dsimp only
  rw [List.rtake, List.length_append, List.length_singleton]
  split
  · rename_i hfull
    rw [hfull, Nat.add_sub_cancel_left, List.drop_append_of_le_length (by omega), List.drop_one]
  · rw [Nat.sub_eq_zero_of_le (by omega), List.drop_zero]

/-- Recording lines puts their texts after the ones before, and keeps the last ones. -/
theorem lines_foldl_push (tail : TailInner) (slices : List (List UInt8)) :
    (slices.foldl TailInner.push tail).lines = (tail.lines ++ slices.map TailInner.textOf).rtake tailLines := by
  induction slices generalizing tail with
  | nil =>
    rw [List.foldl_nil, List.map_nil, List.append_nil, List.rtake, Nat.sub_eq_zero_of_le tail.bounded, List.drop_zero]
  | cons bytes slices ih =>
    rw [List.foldl_cons, ih, lines_push, rtake_rtake_append, List.map_cons, List.append_assoc]
    rfl

theorem captured_foldl_push (tail : TailInner) (slices : List (List UInt8)) :
    (slices.foldl TailInner.push tail).captured = tail.captured := by
  induction slices generalizing tail with
  | nil => rfl
  | cons bytes slices ih => exact ih (tail.push bytes)

/-- A pump leaves the last lines, what it recorded after the ones before. -/
theorem lines_pump (tail : TailInner) (reads : List Read) :
    (pump tail reads).1.lines = (tail.lines ++ recorded reads).rtake tailLines :=
  lines_foldl_push tail.markCaptured (pumpFrom [] reads).2

/-- A pump notes that the stream is captured. -/
theorem captured_pump (tail : TailInner) (reads : List Read) : (pump tail reads).1.captured = true :=
  captured_foldl_push tail.markCaptured (pumpFrom [] reads).2

/-- Two ways of reading one output: both write it and record one line for each of its lines, each cut, and so leave
any tail the same, exactly when in neither a piece ends too far into a line that goes on. -/
theorem pump_chunking {reads other : List Read} (hsame : received reads = received other) :
    ((∀ tail, (pump tail reads).2 = received reads ∧ pump tail reads = pump tail other) ∧
        recorded reads = lineTexts (received reads) ∧ recorded other = lineTexts (received reads)) ↔
      ¬ Overruns reads ∧ ¬ Overruns other := by
  have hreads := recorded_eq_iff reads
  have hother := recorded_eq_iff other
  rw [← hsame] at hother
  constructor
  · intro h
    exact ⟨hreads.mp h.2.1, hother.mp h.2.2⟩
  · intro h
    have hrecorded : recorded reads = recorded other := (hreads.mpr h.1).trans (hother.mpr h.2).symm
    refine ⟨fun tail => ⟨pumpFrom_fst [] reads, Prod.ext (TailInner.ext ?_ ?_) ?_⟩, hreads.mpr h.1, hother.mpr h.2⟩
    · rw [lines_pump, lines_pump, hrecorded]
    · rw [captured_pump, captured_pump]
    · exact (pumpFrom_fst [] reads).trans (hsame.trans (pumpFrom_fst [] other).symm)

/-- An output of two lines read in one piece and in two, one that ends within a character. -/
theorem pump_chunking_sample :
    (∀ tail, (pump tail [.bytes [0xC3, 0xA9, 10, 104]]).2 = received [.bytes [0xC3, 0xA9, 10, 104]] ∧
      pump tail [.bytes [0xC3, 0xA9, 10, 104]] = pump tail [.bytes [0xC3], .interrupted, .bytes [0xA9, 10, 104]]) ∧
        recorded [.bytes [0xC3, 0xA9, 10, 104]] = lineTexts (received [.bytes [0xC3, 0xA9, 10, 104]]) ∧
        recorded [.bytes [0xC3], .interrupted, .bytes [0xA9, 10, 104]] =
          lineTexts (received [.bytes [0xC3, 0xA9, 10, 104]]) := by
  exact (pump_chunking (by decide)).mpr
    ⟨not_overruns_of_length_le (by decide), not_overruns_of_length_le (by decide)⟩

/-- A line one byte too long, read up to its newline and then to the end: a second, empty line is recorded for it
that one piece does not record. -/
theorem pump_not_chunking :
    received [.bytes (List.replicate 4097 120), .bytes [10]] = received [.bytes (List.replicate 4097 120 ++ [10])] ∧
      (pump .new [.bytes (List.replicate 4097 120), .bytes [10]]).1.captures ≠
        (pump .new [.bytes (List.replicate 4097 120 ++ [10])]).1.captures := by
  have hline : newline ∉ List.replicate 4097 (120 : UInt8) := by
    intro hmem
    exact absurd (List.eq_of_mem_replicate hmem) (by decide)
  have hlength : maxLineBytes < (List.replicate 4097 (120 : UInt8)).length := by
    rw [List.length_replicate]
    decide
  generalize List.replicate 4097 (120 : UInt8) = line at hline hlength
  have hsome : line.isEmpty = false := by
    cases line with
    | nil => exact absurd hlength (Nat.not_lt_zero _)
    | cons byte line => rfl
  have hcut := cutLines_of_notMem hline
  have hended : cutLines newline (line ++ [newline]) = ([line], []) := cutLines_append_cons hline []
  have hlast : pumpFrom [] [.bytes [newline]] = ([newline], [[]]) := by
    rw [pumpFrom, takeLines_eq]
    rfl
  have hsplit : recorded [.bytes line, .bytes [newline]] = [TailInner.textOf line, TailInner.textOf []] := by
    rw [recorded, pumpFrom, hsome, if_neg Bool.false_ne_true, List.nil_append, takeLines_eq, hcut]
    dsimp only
    rw [if_pos hlength, hlast]
    rfl
  have hwhole : recorded [.bytes (line ++ [newline])] = [TailInner.textOf line] := by
    rw [recorded, pumpFrom, List.nil_append, takeLines_eq, hended, if_neg (by simp)]
    rfl
  have hreceived : received [.bytes line, .bytes [newline]] = received [.bytes (line ++ [newline])] := by
    simp only [received, List.isEmpty_iff, List.append_eq_nil_iff, List.cons_ne_nil, and_false, if_false,
      List.append_nil, hsome, Bool.false_eq_true]
  refine ⟨hreceived, fun hcaptures => ?_⟩
  rw [TailInner.captures, TailInner.captures, captured_pump, captured_pump, if_pos rfl, if_pos rfl] at hcaptures
  have hlines := congrArg List.length (Option.some.inj hcaptures)
  rw [lines_pump, lines_pump] at hlines
  simp only [newline] at hsplit hwhole
  simp only [hsplit, hwhole, TailInner.new, List.rtake, List.length_drop, List.nil_append, List.length_cons,
    List.length_nil] at hlines
  exact absurd hlines (by decide)

end Devkit.Ports
