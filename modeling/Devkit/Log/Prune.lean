import Devkit.Library.Budget
import Mathlib.Data.List.Sort
import Mathlib.Data.String.Basic

/-!
# Sweeping the log directory

A sweep first empties the days older than the age cap, then the oldest names until the total is under the
size cap, and last removes the directories left empty. Files inside the recency window are spared.
-/

namespace Devkit.Log

open Devkit.Library

/-- Dates as the calendar library reads and writes them, counted in days. -/
structure Calendar where
  dayFromName : String → Option ℤ
  dayDir : ℤ → String
  earliest : ℤ

/-- What a listing of a day directory yields. -/
structure Entry where
  name : String
  isFile : Bool
  size : ℕ
  modified : Option ℤ
  removable : Bool
deriving DecidableEq

/-- A directory of the log directory; none for a listing that fails. -/
structure Day where
  name : String
  entries : Option (List Entry)
  removable : Bool
deriving DecidableEq

/-- What stands in the way of a sweep. -/
inductive Lock
  | unopened
  | held
  | free
deriving DecidableEq

/-- The log directory, its directories in the order of the listing. -/
structure Root where
  lock : Lock
  dirs : List Day

/-- The caps of a sweep. -/
structure Settings where
  maxAgeDays : Option ℕ
  maxBytes : Option ℕ

/-- What a sweep did. -/
structure Outcome where
  filesRemoved : ℕ
  bytesFreed : ℕ
  dirsRemoved : ℕ
  bailed : Bool
  capReached : Bool
deriving DecidableEq

/-- How long after its last write a file is spared, in nanoseconds. -/
def recencyWindow : ℤ := 60 * 60 * 1000000000

/-- Whether a file was written inside the recency window, or at no time before now. -/
def isFresh (entry : Entry) (now : ℤ) : Bool :=
  match entry.modified with
  | none => true
  | some modified => if modified ≤ now then decide (now - modified < recencyWindow) else true

/-- Remove the files of a listing outside the recency window. -/
def removeEntries (now : ℤ) : List Entry → Outcome → List Entry × Outcome
  | [], out => ([], out)
  | entry :: rest, out =>
    if !entry.isFile || entry.name == "prune.lock" then
      (entry :: (removeEntries now rest out).1, (removeEntries now rest out).2)
    else if isFresh entry now then
      (entry :: (removeEntries now rest out).1, (removeEntries now rest out).2)
    else if entry.removable then
      removeEntries now rest
        { out with filesRemoved := out.filesRemoved + 1, bytesFreed := out.bytesFreed + entry.size }
    else
      (entry :: (removeEntries now rest out).1, (removeEntries now rest out).2)

/-- Delete every file of a directory outside the recency window. -/
def removeFiles (now : ℤ) (day : Day) (out : Outcome) : Day × Outcome :=
  match day.entries with
  | none => (day, out)
  | some entries =>
    ({ day with entries := some (removeEntries now entries out).1 }, (removeEntries now entries out).2)

/-- The bytes of the files of a directory. -/
def dirSize (day : Day) : ℕ := (((day.entries.getD []).filter (·.isFile)).map (·.size)).sum

/-- Whether a directory holds nothing. -/
def isEmpty (day : Day) : Bool := day.entries == some []

/-- The age pass: empty the days named before the cutoff. -/
def agePass (calendar : Calendar) (cutoff : Option ℤ) (now : ℤ) : List Day → Outcome → List Day × Outcome
  | [], out => ([], out)
  | day :: rest, out =>
    match cutoff, calendar.dayFromName day.name with
    | some cutoff', some named =>
      if named < cutoff' then
        let removed := removeFiles now day out
        (removed.1 :: (agePass calendar cutoff now rest removed.2).1, (agePass calendar cutoff now rest removed.2).2)
      else (day :: (agePass calendar cutoff now rest out).1, (agePass calendar cutoff now rest out).2)
    | _, _ => (day :: (agePass calendar cutoff now rest out).1, (agePass calendar cutoff now rest out).2)

/-- The size pass: empty the directories in their order while the total is over the cap, today's apart. -/
def sizePass (today : String) (maxBytes : ℕ) (now : ℤ) : List Day → ℕ → Outcome → List Day × ℕ × Outcome
  | [], total, out => ([], total, out)
  | day :: rest, total, out =>
    if total ≤ maxBytes then (day :: rest, total, out)
    else if day.name = today then
      let later := sizePass today maxBytes now rest total out
      (day :: later.1, later.2)
    else
      let removed := removeFiles now day out
      let later := sizePass today maxBytes now rest (total - (removed.2.bytesFreed - out.bytesFreed)) removed.2
      (removed.1 :: later.1, later.2)

/-- Remove the directories left empty. -/
def removeEmpty : List Day → Outcome → List Day × Outcome
  | [], out => ([], out)
  | day :: rest, out =>
    if isEmpty day && day.removable then removeEmpty rest { out with dirsRemoved := out.dirsRemoved + 1 }
    else (day :: (removeEmpty rest out).1, (removeEmpty rest out).2)

/-- A sweep: what it did, and the directories before it, after either pass and at its end. -/
structure Sweep where
  out : Outcome
  before : List Day
  aged : List Day
  sized : List Day
  after : List Day

/-- A sweep that leaves everything. -/
def Sweep.nothing (out : Outcome) (days : List Day) : Sweep := ⟨out, days, days, days, days⟩

/-- The outcome a sweep starts from. -/
def Outcome.start : Outcome := ⟨0, 0, 0, false, true⟩

/-- The directories in the order of their names. -/
def sortedDays (dirs : List Day) : List Day := dirs.mergeSort fun a b => decide (a.name ≤ b.name)

/-- The date before which a day is too old; none where the calendar has no such date. -/
def cutoffOf (calendar : Calendar) (settings : Settings) (today : String) : Option (Option ℤ) :=
  match settings.maxAgeDays, calendar.dayFromName today with
  | some maxAge, some date => if calendar.earliest ≤ date - maxAge then some (some (date - maxAge)) else none
  | _, _ => some none

/-- Sweep the log directory; none where the cutoff is out of the calendar's range. -/
def sweepAt (calendar : Calendar) (settings : Settings) (root : Option Root) (now : ℤ) : Option Sweep :=
  match root with
  | none => some (Sweep.nothing Outcome.start [])
  | some root =>
    match root.lock with
    | .unopened => some (Sweep.nothing { Outcome.start with bailed := true } (sortedDays root.dirs))
    | .held => some (Sweep.nothing { Outcome.start with bailed := true } (sortedDays root.dirs))
    | .free =>
      let today := calendar.dayDir now
      let days := sortedDays root.dirs
      (cutoffOf calendar settings today).map fun cutoff =>
        let aged := agePass calendar cutoff now days Outcome.start
        match settings.maxBytes with
        | none =>
          let emptied := removeEmpty aged.1 aged.2
          ⟨emptied.2, days, aged.1, aged.1, emptied.1⟩
        | some maxBytes =>
          let sized := sizePass today maxBytes now aged.1 (aged.1.map dirSize).sum aged.2
          let emptied := removeEmpty sized.1 { sized.2.2 with capReached := decide (sized.2.1 ≤ maxBytes) }
          ⟨emptied.2, days, aged.1, sized.1, emptied.1⟩

section Files

/-- Whether a sweep that comes to a file removes it. -/
def deletable (now : ℤ) (entry : Entry) : Bool :=
  entry.isFile && entry.name != "prune.lock" && !isFresh entry now && entry.removable

/-- The files a sweep that comes to a directory removes. -/
def removals (now : ℤ) (day : Day) : List Entry := (day.entries.getD []).filter (deletable now)

/-- A directory without them. -/
def emptied (now : ℤ) (day : Day) : Day :=
  { day with entries := day.entries.map fun entries => entries.filter fun entry => !deletable now entry }

/-- An outcome with the removal of files counted in. -/
def Outcome.counting (out : Outcome) (gone : List Entry) : Outcome :=
  { out with filesRemoved := out.filesRemoved + gone.length, bytesFreed := out.bytesFreed + weight Entry.size gone }

theorem deletable_iff {now : ℤ} {entry : Entry} :
    deletable now entry = true ↔
      entry.isFile = true ∧ entry.name ≠ "prune.lock" ∧ isFresh entry now = false ∧ entry.removable = true := by
  simp [deletable, and_assoc]

/-- Removing the files of a listing keeps the others and counts the bytes. -/
theorem removeEntries_eq (now : ℤ) (entries : List Entry) (out : Outcome) :
    removeEntries now entries out =
      (entries.filter (fun entry => !deletable now entry), out.counting (entries.filter (deletable now))) := by
  induction entries generalizing out with
  | nil => rfl
  | cons entry rest ih =>
    rw [removeEntries]
    cases hdeletable : deletable now entry with
    | true =>
      obtain ⟨hfile, hlock, hfresh, hremovable⟩ := deletable_iff.mp hdeletable
      have hskip : ¬ (!entry.isFile || entry.name == "prune.lock") = true := by simp [hfile, hlock]
      rw [if_neg hskip, if_neg (by rw [hfresh]; nofun), if_pos hremovable, ih,
        List.filter_cons_of_neg (by rw [hdeletable]; decide), List.filter_cons_of_pos hdeletable]
      simp only [Outcome.counting, weight_cons, List.length_cons, Nat.add_assoc, Nat.add_comm 1]
    | false =>
      rw [List.filter_cons_of_pos (by rw [hdeletable]; rfl),
        List.filter_cons_of_neg (Bool.not_eq_true _ ▸ hdeletable), ih]
      split
      · rfl
      · split
        · rfl
        · rename_i hskip hfresh
          rw [if_neg]
          intro hremovable
          have hall : deletable now entry = true := by
            simp_all [deletable]
          rw [hdeletable] at hall
          cases hall

/-- Removing the files of a directory keeps the others and counts the bytes. -/
theorem removeFiles_eq (now : ℤ) (day : Day) (out : Outcome) :
    removeFiles now day out = (emptied now day, out.counting (removals now day)) := by
  obtain ⟨name, entries, removable⟩ := day
  cases entries with
  | none => rfl
  | some entries =>
    rw [removeFiles]
    dsimp only
    rw [removeEntries_eq]
    rfl

/-- The files removed and the files kept make up the directory. -/
theorem dirSize_emptied (now : ℤ) (day : Day) :
    dirSize (emptied now day) + weight Entry.size (removals now day) = dirSize day := by
  obtain ⟨name, entries, removable⟩ := day
  cases entries with
  | none => rfl
  | some entries =>
    have hremoved : (entries.filter (deletable now)).filter (·.isFile) = entries.filter (deletable now) :=
      List.filter_eq_self.mpr fun entry hentry => (deletable_iff.mp (List.mem_filter.mp hentry).2).1
    have hboth : weight Entry.size ((entries.filter (·.isFile)).filter (deletable now)) +
        weight Entry.size ((entries.filter (·.isFile)).filter fun entry => !deletable now entry) =
          weight Entry.size (entries.filter (·.isFile)) := weight_filter_add _ _
    rw [List.filter_comm, hremoved, List.filter_comm] at hboth
    exact (Nat.add_comm _ _).trans hboth

/-- What is left after a directory is emptied is nothing deletable. -/
theorem removals_emptied (now : ℤ) (day : Day) : removals now (emptied now day) = [] := by
  obtain ⟨name, entries, removable⟩ := day
  cases entries with
  | none => rfl
  | some entries =>
    refine List.filter_eq_nil_iff.mpr fun entry hentry => ?_
    have hkept : (!deletable now entry) = true := (List.mem_filter.mp hentry).2
    simpa using hkept

/-- A directory with nothing deletable is emptied of nothing. -/
theorem emptied_eq_self {now : ℤ} {day : Day} (h : removals now day = []) : emptied now day = day := by
  obtain ⟨name, entries, removable⟩ := day
  cases entries with
  | none => rfl
  | some entries =>
    have hself : entries.filter (fun entry => !deletable now entry) = entries :=
      List.filter_eq_self.mpr fun entry hentry => by simpa using List.filter_eq_nil_iff.mp h entry hentry
    rw [emptied]
    dsimp only
    rw [Option.map_some, hself]

/-- A file that is gone was deletable. -/
theorem mem_removals {now : ℤ} {day : Day} {entry : Entry} (hin : entry ∈ day.entries.getD [])
    (hout : entry ∉ (emptied now day).entries.getD []) : entry ∈ removals now day := by
  obtain ⟨name, entries, removable⟩ := day
  cases entries with
  | none => cases hin
  | some entries =>
    refine List.mem_filter.mpr ⟨hin, ?_⟩
    by_contra hnot
    exact hout (List.mem_filter.mpr ⟨hin, by simpa using hnot⟩)

end Files

section Passes

variable {calendar : Calendar} {now : ℤ}

/-- Whether the name of a directory is a date before the cutoff. -/
def tooOld (calendar : Calendar) (cutoff : Option ℤ) (name : String) : Bool :=
  match cutoff, calendar.dayFromName name with
  | some cutoff', some named => decide (named < cutoff')
  | _, _ => false

/-- What the age pass makes of a directory. -/
def agedDay (calendar : Calendar) (cutoff : Option ℤ) (now : ℤ) (day : Day) : Day :=
  if tooOld calendar cutoff day.name then emptied now day else day

/-- What the size pass makes of a directory it comes to. -/
def sizedDay (today : String) (now : ℤ) (day : Day) : Day := if day.name = today then day else emptied now day

/-- The bytes the size pass frees in a directory it comes to. -/
def freedBytes (today : String) (now : ℤ) (day : Day) : ℕ :=
  if day.name = today then 0 else weight Entry.size (removals now day)

/-- The age pass takes a directory that is too old and passes any other. -/
theorem agePass_cons (cutoff : Option ℤ) (day : Day) (rest : List Day) (out : Outcome) :
    agePass calendar cutoff now (day :: rest) out =
      let later := agePass calendar cutoff now rest
        (if tooOld calendar cutoff day.name then out.counting (removals now day) else out)
      (agedDay calendar cutoff now day :: later.1, later.2) := by
  unfold agedDay tooOld
  rw [agePass.eq_def]
  dsimp only
  generalize calendar.dayFromName day.name = date?
  cases cutoff with
  | none => rfl
  | some date =>
    cases date? with
    | none => rfl
    | some named =>
      dsimp only
      by_cases hold : named < date
      · rw [if_pos hold, if_pos (decide_eq_true hold), if_pos (decide_eq_true hold), removeFiles_eq]
      · rw [if_neg hold, if_neg (by simpa using hold), if_neg (by simpa using hold)]

/-- The age pass empties the directories that are too old. -/
theorem agePass_eq (cutoff : Option ℤ) (days : List Day) (out : Outcome) :
    (agePass calendar cutoff now days out).1 = days.map (agedDay calendar cutoff now) ∧
    (agePass calendar cutoff now days out).2.bailed = out.bailed ∧
    (agePass calendar cutoff now days out).2.capReached = out.capReached := by
  induction days generalizing out with
  | nil => exact ⟨rfl, rfl, rfl⟩
  | cons day rest ih =>
    obtain ⟨hdays, hbailed, hcap⟩ :=
      ih (if tooOld calendar cutoff day.name then out.counting (removals now day) else out)
    rw [agePass_cons]
    refine ⟨congrArg (agedDay calendar cutoff now day :: ·) hdays, hbailed.trans ?_, hcap.trans ?_⟩
    · split <;> rfl
    · split <;> rfl

/-- The size pass drains the directories to the cap. -/
theorem sizePass_eq (today : String) (maxBytes : ℕ) (days : List Day) (total : ℕ) (out : Outcome) :
    (sizePass today maxBytes now days total out).1 =
      (drain maxBytes (sizedDay today now) (freedBytes today now) total days).1 ∧
    (sizePass today maxBytes now days total out).2.1 =
      (drain maxBytes (sizedDay today now) (freedBytes today now) total days).2 ∧
    (sizePass today maxBytes now days total out).2.2.bailed = out.bailed := by
  induction days generalizing total out with
  | nil => exact ⟨rfl, rfl, rfl⟩
  | cons day rest ih =>
    rw [sizePass, drain, sizedDay, freedBytes]
    split
    · exact ⟨rfl, rfl, rfl⟩
    · split
      · obtain ⟨hdays, hrest⟩ := ih total out
        exact ⟨congrArg (day :: ·) hdays, hrest⟩
      · have hfreed : (out.counting (removals now day)).bytesFreed - out.bytesFreed =
          weight Entry.size (removals now day) :=
          Nat.add_sub_cancel_left _ _
        rw [removeFiles_eq]
        dsimp only
        rw [hfreed]
        obtain ⟨hdays, hrest⟩ := ih (total - weight Entry.size (removals now day)) (out.counting (removals now day))
        exact ⟨congrArg (emptied now day :: ·) hdays, hrest⟩

/-- Last the empty directories are removed. -/
theorem removeEmpty_eq (days : List Day) (out : Outcome) :
    (removeEmpty days out).1 = days.filter (fun day => !(isEmpty day && day.removable)) ∧
    (removeEmpty days out).2.bailed = out.bailed ∧ (removeEmpty days out).2.capReached = out.capReached := by
  induction days generalizing out with
  | nil => exact ⟨rfl, rfl, rfl⟩
  | cons day rest ih =>
    rw [removeEmpty]
    split
    · rename_i hempty
      rw [List.filter_cons_of_neg (by rw [hempty]; decide)]
      exact ih { out with dirsRemoved := out.dirsRemoved + 1 }
    · rename_i hkept
      have hkept : (isEmpty day && day.removable) = false := Bool.not_eq_true _ ▸ hkept
      rw [List.filter_cons_of_pos (by rw [hkept]; rfl)]
      exact ⟨congrArg (day :: ·) (ih out).1, (ih out).2⟩

/-- What the size pass frees in a directory is what the directory loses. -/
theorem dirSize_sizedDay (today : String) (day : Day) :
    dirSize (sizedDay today now day) + freedBytes today now day = dirSize day := by
  rw [sizedDay, freedBytes]
  split
  · rfl
  · exact dirSize_emptied now day

end Passes

end Devkit.Log
