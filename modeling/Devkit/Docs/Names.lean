import Mathlib.Data.List.Basic

/-!
# Names of the docs cache

The cache keeps a library in a directory of its name and a checkout in a directory of its ref, with every '/' of
the name written '~'. A name that holds a '~' itself is refused, so the directory tells the name, and so does the
file a library is locked by.
-/

namespace Devkit.Docs

/-- The name of a directory for a name. -/
def encode (name : String) : String := String.ofList (name.toList.map fun c => if c = '/' then '~' else c)

/-- The name a directory stands for. -/
def decode (dir : String) : String := String.ofList (dir.toList.map fun c => if c = '~' then '/' else c)

/-- A name as a file system that folds case reads it. -/
def foldKey (component : String) : String := String.ofList (component.toList.map Char.toLower)

/-- A path component has at most this many bytes. -/
def maxComponentBytes : ℕ := 255

/-- The control files inside a library directory. -/
def checkoutReserved : List String := ["repo.git", "meta.toml"]

/-- The fixed lock files beside those of the libraries, without their ending. -/
def controlStems : List String := ["manifest"]

/-- The entry of the cache root is the registry's. -/
def isControl (component : String) : Bool :=
  component == "registry" || "registry.".toList.isPrefixOf component.toList

/-- The folded name is that of a control lock. -/
def isControlStem (folded : String) : Bool := controlStems.contains folded

/-- No component may step out of its directory. -/
def rejectTraversal (name : String) : Except String Unit :=
  if (name.toList.splitOnP fun c => c == '/' || c == '\\').any fun component =>
      component == ['.'] || component == ['.', '.'] then
    .error s!"`{name}` contains a path traversal component"
  else .ok ()

/-- What to do about a reserved name. -/
def reservedRecovery (name : String) : String :=
  s!"Register a new one under another name with `docm add <other-name> --package {name}`. " ++
  s!"An entry already recorded as `{name}` fails this same check under `docm rm`: delete it " ++
  "from the manifest holding it (docs.toml or a project devkit.toml) and delete " ++
  s!"<cache>/{encode name} by hand."

/-- The component fits a file system. -/
def representable (component : String) : Except String Unit :=
  if component.utf8ByteSize > maxComponentBytes then
    .error (s!"`{component}` is {component.utf8ByteSize} bytes; " ++
      s!"a path component cannot exceed {maxComponentBytes}")
  else .ok ()

/-- The name may be that of a library. -/
def validateLib (name : String) : Except String Unit := do
  if name.isEmpty then throw "library name is empty"
  if name.toList.contains '~' then
    throw (s!"library name `{name}` contains `~`, which docm uses to encode `/` in cache paths; " ++
      "pass --package to register it under a different name")
  rejectTraversal name
  let folded := foldKey name
  if isControl folded then
    throw (s!"library name `{name}` is reserved: the docs cache keeps its reference registry " ++
      s!"at <cache>/registry.* and a library directory there would shadow it. {reservedRecovery name}")
  if isControlStem folded then
    throw (s!"library name `{name}` is reserved: the docs cache locks its own bookkeeping at " ++
      s!"<cache>/registry.locks/{folded}.lock, which is where a library named `{name}` " ++
      s!"would lock. {reservedRecovery name}")
  representable (encode name)

/-- The ref may be checked out. -/
def validateRef (gitRef : String) : Except String Unit := do
  if gitRef.isEmpty then throw "ref is empty"
  if gitRef.toList.contains '~' then
    throw s!"`{gitRef}` contains `~`, which is illegal in a git ref name"
  rejectTraversal gitRef
  let dir := encode gitRef
  if checkoutReserved.any fun reserved => foldKey reserved == foldKey dir then
    throw s!"ref `{gitRef}` collides with a control file inside the library directory"
  representable dir

/-- The directory of a library. -/
def libDir (name : String) : Except String String := do
  validateLib name
  return encode name

/-- The directory of a checkout. -/
def checkoutDir (gitRef : String) : Except String String := do
  validateRef gitRef
  return encode gitRef

/-- The name of the file a library directory is locked by. -/
def lockPathForDir (dirname displayName : String) : Except String String :=
  let component := dirname ++ ".lock"
  if component.utf8ByteSize > maxComponentBytes then
    .error s!"library name `{displayName}` is too long to form a lock file name"
  else .ok component

/-- The name of the file a library is locked by. -/
def lockPath (lib : String) : Except String String := do
  lockPathForDir (← libDir lib) lib

/-- The name of the file a library is locked by, from its directory. -/
def lockPathOfDir (dirname : String) : Except String String := lockPath (decode dirname)

section RoundTrip

variable {name dir : String}

/-- A name without '~' is read back off its directory. -/
theorem decode_encode (h : '~' ∉ name.toList) : decode (encode name) = name := by
  have hchars : (name.toList.map fun c => if c = '/' then '~' else c).map (fun c => if c = '~' then '/' else c) =
      name.toList := by
    rw [List.map_map]
    conv_rhs => rw [← List.map_id name.toList]
    refine List.map_congr_left fun c hc => ?_
    have hother : c ≠ '~' := fun heq => h (heq ▸ hc)
    by_cases hslash : c = '/'
    · simp [hslash]
    · simp [hslash, hother]
  rw [decode, encode, String.toList_ofList, hchars, String.ofList_toList]

/-- A library's name holds no '~'. -/
theorem not_mem_of_validateLib (h : validateLib name = .ok ()) : '~' ∉ name.toList := by
  intro hmem
  have hcontains : name.toList.contains '~' = true := List.contains_iff_mem.mpr hmem
  simp only [validateLib, hcontains] at h
  split at h <;> cases h

/-- What naming a library's directory comes to. -/
theorem libDir_eq_ok : libDir name = .ok dir ↔ validateLib name = .ok () ∧ encode name = dir := by
  unfold libDir
  cases validateLib name with
  | error message => exact iff_of_false (by rintro ⟨⟩) (by rintro ⟨⟨⟩, _⟩)
  | ok => exact ⟨fun h => ⟨rfl, Except.ok.inj h⟩, fun h => congrArg Except.ok h.2⟩

/-- The directory of a library tells its name. -/
theorem decode_of_libDir (h : libDir name = .ok dir) : decode dir = name := by
  obtain ⟨hvalid, rfl⟩ := libDir_eq_ok.mp h
  exact decode_encode (not_mem_of_validateLib hvalid)

/-- The directory of a library that has a lock tells its name. -/
theorem decode_encode_of_lockPath {lock : String} (h : lockPath name = .ok lock) : decode (encode name) = name := by
  cases hdir : libDir name with
  | error message =>
    rw [lockPath, hdir] at h
    cases h
  | ok dir =>
    rw [(libDir_eq_ok.mp hdir).2]
    exact decode_of_libDir hdir

end RoundTrip

end Devkit.Docs
