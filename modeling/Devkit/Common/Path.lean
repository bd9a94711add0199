import Devkit.Library.Walks

/-!
# Unix paths

A path is a string of bytes. Its components are what the standard library iterates over:
empty and "." segments are skipped, except that a relative path may start with ".".
-/

namespace Devkit.Common

open Devkit.Library

/-- A string of bytes, of any encoding. -/
abbrev OsStr := List UInt8

/-- One component of a path. -/
inductive Component
  | rootDir
  | curDir
  | parentDir
  | normal (name : OsStr)
deriving DecidableEq

/-- The bytes of a text. -/
def bytes (text : String) : OsStr := text.toByteArray.data.toList

/-- The text of a byte string, if it is valid UTF-8. -/
def toStr (name : OsStr) : Option String := String.fromUTF8? ⟨name.toArray⟩

/-- The byte '/'. -/
def separator : UInt8 := 47

/-- The byte '.'. -/
def dot : UInt8 := 46

/-- The component a segment stands for, if it stands for any. -/
def componentOf (segment : OsStr) : Option Component :=
  if segment = [] ∨ segment = [dot] then none
  else if segment = [dot, dot] then some .parentDir
  else some (.normal segment)

/-- The components of a path. -/
def components (path : OsStr) : List Component :=
  let segments := path.splitOn separator
  let start :=
    if path.head? = some separator then [.rootDir]
    else if segments.head? = some [dot] then [.curDir] else []
  start ++ segments.filterMap componentOf

/-- A path that starts at the root directory. -/
structure AbsPath where
  path : OsStr
  absolute : path.head? = some separator

/-- One component of the clean form: "..", after a name, drops it, and above the root directory
does nothing. -/
def normalizeStep (state : List Component × Bool) (component : Component) : List Component × Bool :=
  let (stack, hasRoot) := state
  match component with
  | .curDir => (stack, hasRoot)
  | .rootDir => (stack ++ [.rootDir], true)
  | .parentDir =>
    match stack.getLast? with
    | some (.normal _) => (stack.dropLast, hasRoot)
    | some .parentDir => if hasRoot then (stack, hasRoot) else (stack ++ [.parentDir], hasRoot)
    | none => if hasRoot then (stack, hasRoot) else (stack ++ [.parentDir], hasRoot)
    | _ => (stack, hasRoot)
  | .normal name => (stack ++ [.normal name], hasRoot)

/-- The lexical clean form of a path. -/
def normalizeLexically (path : OsStr) : List Component :=
  ((components path).foldl normalizeStep ([], false)).1

/-- The move a component makes from a directory. -/
def Component.move : Component → Option (Move OsStr)
  | .normal name => some (.down name)
  | .parentDir => some .up
  | .rootDir | .curDir => none

/-- The component is a name or a step up. -/
def Component.IsMove (component : Component) : Prop := component.move.isSome = true

/-- A segment is a name other than "." and "..", a step up, or nothing. -/
theorem componentOf_eq_some {segment : OsStr} {component : Component}
    (h : componentOf segment = some component) :
    component = .parentDir ∨ component = .normal segment ∧ segment ≠ [] ∧ segment ≠ [dot] := by
  unfold componentOf at h
  split at h
  · contradiction
  · rename_i hname
    obtain ⟨hempty, hdot⟩ := not_or.mp hname
    split at h
    · exact Or.inl (Option.some.inj h).symm
    · exact Or.inr ⟨(Option.some.inj h).symm, hempty, hdot⟩

namespace AbsPath

/-- The components below the root directory. -/
def body (p : AbsPath) : List Component := (p.path.splitOn separator).filterMap componentOf

/-- The moves an absolute path makes from the root directory. -/
def moves (p : AbsPath) : List (Move OsStr) := p.body.filterMap Component.move

/-- The names of the clean form, from the root directory down. -/
def names (p : AbsPath) : List OsStr := walk [] p.moves

/-- An absolute path is the root directory and what is below it. -/
theorem components_eq (p : AbsPath) : components p.path = .rootDir :: p.body := by
  simp [components, p.absolute, body]

/-- Names in a path are neither empty nor ".". -/
theorem mem_body_normal {p : AbsPath} {name : OsStr} (h : .normal name ∈ p.body) :
    name ≠ [] ∧ name ≠ [dot] := by
  obtain ⟨segment, _, hsegment⟩ := List.mem_filterMap.mp h
  rcases componentOf_eq_some hsegment with hup | ⟨hname, hne⟩
  · cases hup
  · cases hname
    exact hne

/-- Below the root directory a path has names and steps up only. -/
theorem isMove_of_mem_body {p : AbsPath} {component : Component} (h : component ∈ p.body) :
    component.IsMove := by
  obtain ⟨segment, _, hsegment⟩ := List.mem_filterMap.mp h
  rcases componentOf_eq_some hsegment with rfl | ⟨rfl, _⟩ <;> rfl

end AbsPath

/-- Below the root directory the normalizer walks. -/
theorem foldl_normalizeStep (place : List OsStr) (rest : List Component)
    (hrest : ∀ component ∈ rest, component.IsMove) :
    rest.foldl normalizeStep (.rootDir :: place.map .normal, true) =
      (.rootDir :: (walk place (rest.filterMap Component.move)).map .normal, true) := by
  induction rest generalizing place with
  | nil => rfl
  | cons component rest ih =>
    have htail := fun place => ih place fun other hother => hrest other (List.mem_cons_of_mem _ hother)
    cases component with
    | rootDir | curDir => exact absurd (hrest _ List.mem_cons_self) (by simp [Component.IsMove, Component.move])
    | normal name =>
      have hstep : normalizeStep (.rootDir :: place.map .normal, true) (.normal name) =
          (.rootDir :: (place ++ [name]).map .normal, true) := by
        simp [normalizeStep]
      rw [List.foldl_cons, hstep, htail]
      rfl
    | parentDir =>
      have hstep : normalizeStep (.rootDir :: place.map .normal, true) .parentDir =
          (.rootDir :: place.dropLast.map .normal, true) := by
        rcases List.eq_nil_or_concat place with rfl | ⟨front, last, rfl⟩
        · rfl
        · simp [normalizeStep, List.getLast?_cons, List.dropLast_cons_of_ne_nil]
      rw [List.foldl_cons, hstep, htail]
      rfl

/-- The clean form of an absolute path is the root directory and the names it leads to. -/
theorem AbsPath.normalizeLexically_eq (p : AbsPath) :
    normalizeLexically p.path = .rootDir :: p.names.map .normal := by
  rw [normalizeLexically, p.components_eq, List.foldl_cons]
  change (p.body.foldl normalizeStep (.rootDir :: ([] : List OsStr).map .normal, true)).1 = _
  rw [foldl_normalizeStep [] p.body fun _ h => AbsPath.isMove_of_mem_body h]
  rfl

end Devkit.Common
