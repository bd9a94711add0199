import Devkit.Library.SeparatedPrefix
import Mathlib.Data.List.Sort

/-!
# Slash-separated text

Lock paths and holder ids are '/'-separated strings, compared by stripping one from the
front of the other and looking for a separator at the start of the rest. The comparison
is the ancestry of their segments.
-/

namespace Devkit.Common

open Devkit.Library

/-- The rest of `text` after `start`, when `text` starts with it. -/
def stripPrefix (text start : String) : Option String :=
  (text.toList.dropPrefix? start.toList).map String.ofList

/-- `name` continues `top` with a separator: `name.strip_prefix(top)` leaves a rest starting with '/'. -/
def continues (top name : String) : Bool :=
  (stripPrefix name top).any fun rest => rest.toList.head? == some '/'

/-- Ancestry of slash-separated strings. -/
def Ancestor (top name : String) : Prop := AtOrAbove '/' top.toList name.toList

/-- Two slash-separated strings on one line of ancestry. -/
def OneLine (a b : String) : Prop := OnOneLine '/' a.toList b.toList

/-- The session part of a holder id, up to the first separator. -/
def session (holder : String) : List Char := firstSegment '/' holder.toList

/-- Stripping finds exactly the continuations of the prefix by a separator. -/
theorem continues_iff {top name : String} :
    continues top name = true ↔ top.toList ++ ['/'] <+: name.toList := by
  simp only [continues, stripPrefix, Option.any_map, Option.any_eq_true,
    String.toList_ofList, beq_iff_eq]
  constructor
  · rintro ⟨rest, hstrip, hhead⟩
    obtain ⟨start, hname, hstart⟩ := List.dropPrefix?_eq_some_iff.mp hstrip
    rw [beq_iff_eq] at hstart
    subst hstart
    obtain ⟨tail, rfl⟩ : ∃ tail, rest = '/' :: tail := by
      cases rest with
      | nil => simp at hhead
      | cons c tail => exact ⟨tail, by simpa using hhead⟩
    exact ⟨tail, by simp [hname]⟩
  · rintro ⟨tail, hname⟩
    refine ⟨'/' :: tail, List.dropPrefix?_eq_some_iff.mpr ⟨top.toList, ?_, by simp⟩, rfl⟩
    simp [← hname]

/-- A string or one it continues: the ancestry test of the code. -/
theorem eq_or_continues_iff {top name : String} :
    (top == name || continues top name) = true ↔ Ancestor top name := by
  simp [continues_iff, Ancestor, AtOrAbove, String.toList_inj]

/-- A string is longer in bytes than every string it continues. -/
theorem utf8ByteSize_lt_of_continues {top name : String} (h : continues top name = true) :
    top.utf8ByteSize < name.utf8ByteSize := by
  obtain ⟨tail, htail⟩ := continues_iff.mp h
  have hname : name = top ++ "/" ++ String.ofList tail := by
    rw [← String.toList_inj]
    simp [← htail]
  have hslash : ("/" : String).utf8ByteSize = 1 := by decide
  rw [hname, String.utf8ByteSize_append, String.utf8ByteSize_append, hslash]
  omega

/-- Strings on one line share their session. -/
theorem OneLine.session_eq {a b : String} (h : OneLine a b) : session a = session b :=
  h.firstSegment_eq

end Devkit.Common
