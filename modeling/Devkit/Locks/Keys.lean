import Devkit.Common.Path

/-!
# Keys of spelled paths

A lock key is a path relative to its checkout root. The key is cut off the spelled path
before it is cleaned, so a spelling that climbs out of the root keeps a key inside it.
-/

namespace Devkit.Locks

open Devkit.Common
open Devkit.Library

/-- One component of the relative path: a name is kept, ".." drops the last one kept. -/
def pushPart (parts : List String) : Component → Except String (List String)
  | .normal name =>
    match toStr name with
    | some text => .ok (parts ++ [text])
    | none => .error "non-utf8 path"
  | .curDir => .ok parts
  | .parentDir => .ok parts.dropLast
  | .rootDir => .ok parts

/-- The parts of a key joined; the root itself is ".". -/
def joinParts (parts : List String) : String :=
  if parts.isEmpty then "." else "/".intercalate parts

/-- Strip the root's components off `abs`, clean the rest and join it. -/
def normalizeUnderRoot (abs root : OsStr) : Except String String :=
  match (components abs).dropPrefix? (components root) with
  | none => .error "path is outside the project root"
  | some rel => (rel.foldlM pushPart []).map joinParts

/-- The clean form of `abs` is the root's or lies below it. -/
def UnderRoot (abs root : AbsPath) : Prop := normalizeLexically root.path <+: normalizeLexically abs.path

instance (abs root : AbsPath) : Decidable (UnderRoot abs root) :=
  inferInstanceAs (Decidable (normalizeLexically root.path <+: normalizeLexically abs.path))

/-- A clean path relative to its root, as a key. -/
def relativeKey (names : List OsStr) : Option String := (names.mapM toStr).map joinParts

/-- The spelling has a key exactly when its clean form is under the root, and the key is the
clean form relative to the root. -/
def Canonical (abs root : AbsPath) : Prop :=
  ((∃ key, normalizeUnderRoot abs.path root.path = .ok key) ↔ UnderRoot abs root) ∧
    ∀ key, normalizeUnderRoot abs.path root.path = .ok key →
      ∃ names : List OsStr, normalizeLexically abs.path =
        normalizeLexically root.path ++ names.map .normal ∧ relativeKey names = some key

/-- Every name of the components is valid UTF-8. -/
def Readable (rest : List Component) : Prop := ∀ name, .normal name ∈ rest → (toStr name).isSome

/-- The moves of a relative path. -/
def movesOf (rest : List Component) : List (Move OsStr) := rest.filterMap Component.move

/-- What is left of `abs` after the root's components. -/
def Continues (abs root : AbsPath) (rest : List Component) : Prop :=
  components abs.path = components root.path ++ rest

/-- The text of a name known to be readable. -/
def text (name : OsStr) : String := (toStr name).getD ""

/-- The rest after the root is determined by the two paths. -/
theorem Continues.unique {abs root : AbsPath} {rest rest' : List Component}
    (h : Continues abs root rest) (h' : Continues abs root rest') : rest = rest' :=
  List.append_cancel_left (h.symm.trans h')

/-- Stripping the root finds the rest. -/
theorem dropPrefix?_eq_some {abs root : AbsPath} {rest : List Component} :
    (components abs.path).dropPrefix? (components root.path) = some rest ↔ Continues abs root rest := by
  rw [List.dropPrefix?_eq_some_iff]
  constructor
  · rintro ⟨start, hpath, hstart⟩
    rw [beq_iff_eq] at hstart
    subst hstart
    exact hpath
  · intro h
    exact ⟨_, h, by simp⟩

/-- The code's cleaning of readable components walks from where it stands. -/
theorem foldlM_pushPart (place : List OsStr) {rest : List Component} (hreadable : Readable rest) :
    rest.foldlM pushPart (place.map text) = .ok ((walk place (movesOf rest)).map text) := by
  induction rest generalizing place with
  | nil => rfl
  | cons component rest ih =>
    have htail := fun place => ih place fun name hname => hreadable name (List.mem_cons_of_mem _ hname)
    rw [List.foldlM_cons]
    cases component with
    | rootDir | curDir => exact htail place
    | parentDir =>
      change rest.foldlM pushPart (place.map text).dropLast = _
      rw [← List.map_dropLast, htail]
      rfl
    | normal name =>
      obtain ⟨t, ht⟩ := Option.isSome_iff_exists.mp (hreadable name List.mem_cons_self)
      have hpush : pushPart (place.map text) (.normal name) = .ok ((place ++ [name]).map text) := by
        simp [pushPart, text, ht]
      rw [hpush]
      exact htail (place ++ [name])

/-- An unreadable name fails the cleaning, even where ".." would drop it. -/
theorem foldlM_pushPart_error {rest : List Component} (hunreadable : ¬ Readable rest)
    (parts : List String) : ∃ message, rest.foldlM pushPart parts = .error message := by
  induction rest generalizing parts with
  | nil => exact absurd (fun _ h => absurd h List.not_mem_nil) hunreadable
  | cons component rest ih =>
    rw [List.foldlM_cons]
    by_cases hrest : Readable rest
    · cases component with
      | normal name =>
        have hname : toStr name = none := by
          by_contra hsome
          refine hunreadable fun other hother => ?_
          rcases List.mem_cons.mp hother with heq | hmem
          · cases heq
            exact Option.isSome_iff_ne_none.mpr hsome
          · exact hrest other hmem
        exact ⟨"non-utf8 path", by simp [pushPart, hname]; rfl⟩
      | rootDir | curDir | parentDir =>
        refine absurd (fun other hother => ?_) hunreadable
        rcases List.mem_cons.mp hother with heq | hmem
        · cases heq
        · exact hrest other hmem
    · cases hpush : pushPart parts component with
      | error message => exact ⟨message, rfl⟩
      | ok parts' => exact ih hrest parts'

/-- The key of a readable spelling below the root's: the names its rest leads to from the top. -/
theorem normalizeUnderRoot_of_readable {abs root : AbsPath} {rest : List Component}
    (hrest : Continues abs root rest) (hreadable : Readable rest) :
    normalizeUnderRoot abs.path root.path = .ok (joinParts ((walk [] (movesOf rest)).map text)) := by
  unfold normalizeUnderRoot
  rw [dropPrefix?_eq_some.mpr hrest]
  change (rest.foldlM pushPart (([] : List OsStr).map text)).map joinParts = _
  rw [foldlM_pushPart [] hreadable]
  rfl

/-- Without a readable rest after the root's components there is no key. -/
theorem normalizeUnderRoot_of_not_readable {abs root : AbsPath}
    (h : ∀ rest, Continues abs root rest → ¬ Readable rest) (key : String) :
    normalizeUnderRoot abs.path root.path ≠ .ok key := by
  unfold normalizeUnderRoot
  split
  · nofun
  · rename_i rest hdrop
    obtain ⟨message, hmessage⟩ := foldlM_pushPart_error (h rest (dropPrefix?_eq_some.mp hdrop)) []
    rw [hmessage]
    nofun

end Devkit.Locks
