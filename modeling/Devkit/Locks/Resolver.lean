import Devkit.Library.Outcomes
import Devkit.Locks.Canonical
import Devkit.Locks.Store

/-!
# Resolving writes to registry keys

Each path of a command is keyed under the checkout its own directory belongs to. What the file system
and version control answer is a mapping of checkouts; within one command each question has one answer.
The registry's operations are then asked for the key.

The key of a path that does not climb out of the checkout's root is its clean form below the root's, in the
caller's spelling or, where that does not lead below the root, in the file system's own.
-/

namespace Devkit.Locks

open Devkit.Common
open Devkit.Library

/-- What the file system and version control answer: which directories exist, their own spelling, the
checkout a directory is locked in with the text its rows carry, and which roots are checkouts. -/
structure Checkouts where
  isDir : List Component → Bool
  canonicalize : List Component → Option (List Component)
  findRoot : List Component → List Component × Root
  isCheckout : Root → Bool
  currentDir : List Component

/-- Strip the root's components off a path, clean the rest and join it. -/
def cleanUnder (abs root : List Component) : Except String String :=
  match abs.dropPrefix? root with
  | none => .error "path is outside the project root"
  | some rel => (rel.foldlM pushPart []).map joinParts

/-- The clean form of a path's components. -/
def cleanComponents (path : List Component) : List Component := (path.foldl normalizeStep ([], false)).1

/-- The directory of a path. -/
def parentOf (path : List Component) : Option (List Component) :=
  match path.getLast? with
  | none | some .rootDir => none
  | some _ => some path.dropLast

/-- The deepest directory at or above a path, read from its last component up. -/
def existingUp (isDir : List Component → Bool) (start : List Component) : List Component → List Component
  | [] => start
  | last :: up => if isDir (last :: up).reverse then (last :: up).reverse else existingUp isDir start up

/-- The deepest ancestor of a path that is a directory. -/
def existingAncestor (isDir : List Component → Bool) (start : List Component) : List Component :=
  existingUp isDir start start.reverse

/-- The deepest ancestor that exists, in the file system's own spelling, with the names below it. -/
def resolveUp (canonicalize : List Component → Option (List Component)) :
    List Component → List Component → Option (List Component)
  | [], _ => none
  | last :: up, trailing =>
    match canonicalize (last :: up).reverse with
    | some real => some (real ++ trailing)
    | none =>
      match last with
      | .normal name => resolveUp canonicalize up (.normal name :: trailing)
      | _ => none

namespace Checkouts

variable (w : Checkouts)

/-- A path relative to a root, by the file system's spelling of both where the caller's does not line up. -/
def relUnderRoot (abs root : List Component) : Except String String :=
  match cleanUnder abs root with
  | .ok rel => .ok rel
  | .error reason =>
    match resolveUp w.canonicalize abs.reverse [], w.canonicalize root with
    | some abs, some root => cleanUnder abs root
    | _, _ => .error reason

/-- A path from the root directory: a relative one starts at the current directory. -/
def absolute (path : String) : List Component :=
  let parts := components (bytes path)
  if parts.head? = some .rootDir then parts
  else w.currentDir ++ parts.filter fun part => part != .curDir

/-- The registry key of a path written: the checkout of its own directory, and the path in it. -/
def ctx (path : String) : Except String (Root × String) := do
  let abs := w.absolute path
  let (dir, root) := w.findRoot (existingAncestor w.isDir ((parentOf abs).getD abs))
  let rel ← w.relUnderRoot abs dir
  .ok (root, rel)

/-- The registry key of a directory: its checkout, and the directory in it, or "." for the whole
checkout. -/
def scopeKey (dir : String) (wholeCheckout : Bool) : Except String (Root × String) := do
  let abs := cleanComponents (w.absolute dir)
  let (top, root) := w.findRoot (existingAncestor w.isDir abs)
  let rel ← if wholeCheckout then .ok "." else w.relUnderRoot abs top
  .ok (root, rel)

/-- Live rows another session holds anywhere under a directory. -/
def checkScope (m : Moment) (d : Data) (dir : String) (wholeCheckout : Bool) (holder : String) :
    Except String (List Conflict) := do
  let (root, rel) ← w.scopeKey dir wholeCheckout
  .ok (d.check m root [rel] holder)

/-- Live rows another session holds on a directory or above it. -/
def checkCovering (m : Moment) (d : Data) (dir holder : String) : Except String (List Conflict) := do
  let (root, rel) ← w.scopeKey dir false
  .ok (d.checkCovering m root [rel] holder)

/-- Decide a write to a path. -/
def decideWrite (m : Moment) (d : Data) (path holder : String) (note : Option String) (ttl : ℕ) :
    Except String (Data × WriteDecision) := do
  let (root, rel) ← w.ctx path
  .ok (d.writeDecideWith m root holder rel none note ttl)

/-- Claim a directory whole, where it lies below the root of a checkout. -/
def claimTree (m : Moment) (d : Data) (dir holder : String) (note : Option String) (ttl : ℕ) :
    Except String (Data × Option WriteDecision) := do
  let (root, rel) ← w.scopeKey dir false
  if rel == "." || !w.isCheckout root then .ok (d, none)
  else
    let (d, decision) := d.writeDecideWith m root holder rel none note ttl
    .ok (d, some decision)

end Checkouts

section Below

/-- A path from the root directory: names and steps up below it. -/
def Rooted (path : List Component) : Prop := ∃ rest, path = .rootDir :: rest ∧ ∀ component ∈ rest, component.IsMove

/-- A spelling that starts with a root's components and climbs out of it. -/
def ClimbsOut (top path : List Component) : Prop := ∃ rest, path = top ++ rest ∧ climb (movesOf rest) ≠ 0

/-- A path spelled below a root, readable from there on and never climbing out: its key is its clean form relative to
the root's. -/
structure SpelledBelow (top path : List Component) (rel : String) : Prop where
  spelled : ∃ rest, path = top ++ rest ∧ Readable rest ∧ climb (movesOf rest) = 0
  clean : ∃ names : List OsStr, cleanComponents path = cleanComponents top ++ names.map .normal ∧
    relativeKey names = some rel

/-- The deepest directory at or above a path, or the path itself where there is none. -/
def Deepest (isDir : List Component → Bool) (path dir : List Component) : Prop :=
  (dir ≠ [] ∧ dir <+: path ∧ isDir dir = true ∧ ∀ longer, longer <+: path → isDir longer = true → longer <+: dir) ∨
    (dir = path ∧ ∀ above, above ≠ [] → above <+: path → isDir above = false)

/-- The file system's own spelling of a path: of the longest part that has one, with the names below it. -/
def Resolves (canonicalize : List Component → Option (List Component)) (path real : List Component) : Prop :=
  ∃ (up : List Component) (names : List OsStr) (own : List Component), path = up ++ names.map .normal ∧ up ≠ [] ∧
    canonicalize up = some own ∧ real = own ++ names.map .normal ∧
    ∀ longer, longer <+: path → up.length < longer.length → canonicalize longer = none

/-- The clean form of a path from the root directory is the root directory and the names it leads to. -/
theorem cleanComponents_rooted {rest : List Component} (hmoves : ∀ component ∈ rest, component.IsMove) :
    cleanComponents (.rootDir :: rest) = .rootDir :: (walk [] (movesOf rest)).map .normal := by
  rw [cleanComponents, List.foldl_cons]
  change (rest.foldl normalizeStep (.rootDir :: ([] : List OsStr).map .normal, true)).1 = _
  rw [foldl_normalizeStep [] rest hmoves]
  rfl

/-- A clean path is from the root directory. -/
theorem Rooted.clean {path : List Component} (h : Rooted path) :
    ∃ names : List OsStr, cleanComponents path = .rootDir :: names.map .normal := by
  obtain ⟨rest, rfl, hmoves⟩ := h
  exact ⟨_, cleanComponents_rooted hmoves⟩

/-- Names below the root directory are a path from it. -/
theorem rooted_names (names : List OsStr) : Rooted (.rootDir :: names.map .normal) := by
  refine ⟨_, rfl, fun component hcomponent => ?_⟩
  obtain ⟨name, _, rfl⟩ := List.mem_map.mp hcomponent
  rfl

/-- Below a root that the rest does not climb out of, the clean form is the root's and the names of the rest. -/
theorem clean_below {top rest : List Component} (htop : Rooted top) (hmoves : ∀ component ∈ rest, component.IsMove)
    (hstays : climb (movesOf rest) = 0) :
    cleanComponents (top ++ rest) = cleanComponents top ++ (walk [] (movesOf rest)).map .normal := by
  obtain ⟨first, rfl, hfirst⟩ := htop
  rw [List.cons_append, cleanComponents_rooted fun component hcomponent =>
    (List.mem_append.mp hcomponent).elim (hfirst component) (hmoves component), cleanComponents_rooted hfirst,
    List.cons_append, ← List.map_append, movesOf, List.filterMap_append, walk_append]
  exact congrArg (fun names : List OsStr => Component.rootDir :: names.map .normal)
    (walk_of_climb_eq_zero (walk [] (movesOf first)) hstays)

/-- What is left of a path after a root from the root directory is names and steps up. -/
theorem Rooted.rest {top rest : List Component} (hpath : Rooted (top ++ rest)) (htop : Rooted top) :
    ∀ component ∈ rest, component.IsMove := by
  obtain ⟨first, rfl, _⟩ := htop
  obtain ⟨body, hbody, hmoves⟩ := hpath
  obtain ⟨_, rfl⟩ := List.cons.inj hbody
  exact fun component hcomponent => hmoves component (List.mem_append_right first hcomponent)

/-- A path that does not climb out of a root is cleaned to its key, where it is spelled below the root. -/
theorem cleanUnder_iff {path top : List Component} (hpath : Rooted path) (htop : Rooted top)
    (hstays : ¬ ClimbsOut top path) {rel : String} :
    cleanUnder path top = .ok rel ↔ SpelledBelow top path rel := by
  have hinj : Function.Injective (Component.normal) := fun _ _ h => by cases h; rfl
  have hsplit : ∀ rest, path.dropPrefix? top = some rest ↔ path = top ++ rest := fun rest => by
    rw [List.dropPrefix?_eq_some_iff]
    constructor
    · rintro ⟨start, rfl, hstart⟩
      rw [beq_iff_eq.mp hstart]
    · rintro rfl
      exact ⟨top, rfl, beq_self_eq_true top⟩
  have hkey : ∀ rest, path = top ++ rest → Readable rest →
      cleanUnder path top = .ok (joinParts ((walk [] (movesOf rest)).map text)) := by
    intro rest hrest hreadable
    rw [cleanUnder, (hsplit rest).mpr hrest]
    change (rest.foldlM pushPart (([] : List OsStr).map text)).map joinParts = _
    rw [foldlM_pushPart [] hreadable]
    rfl
  have hnames : ∀ rest : List Component, Readable rest → relativeKey (walk [] (movesOf rest)) =
      some (joinParts ((walk [] (movesOf rest)).map text)) := fun rest hreadable =>
    relativeKey_of_readable fun name hname => hreadable name (normal_mem_of_mem_walk hname)
  constructor
  · intro h
    have hrest : ∃ rest, path = top ++ rest ∧ Readable rest := by
      by_contra hnone
      rw [cleanUnder] at h
      split at h
      · cases h
      · rename_i rest hdrop
        obtain ⟨message, hmessage⟩ := foldlM_pushPart_error
          (fun hreadable => hnone ⟨rest, (hsplit rest).mp hdrop, hreadable⟩) []
        rw [hmessage] at h
        cases h
    obtain ⟨rest, rfl, hreadable⟩ := hrest
    have hzero : climb (movesOf rest) = 0 := by
      by_contra hclimbs
      exact hstays ⟨rest, rfl, hclimbs⟩
    obtain rfl := Except.ok.inj ((hkey rest rfl hreadable).symm.trans h)
    exact ⟨⟨rest, rfl, hreadable, hzero⟩, _, clean_below htop (hpath.rest htop) hzero, hnames rest hreadable⟩
  · rintro ⟨⟨rest, rfl, hreadable, hzero⟩, names, hclean, hrel⟩
    rw [clean_below htop (hpath.rest htop) hzero] at hclean
    obtain rfl := List.map_injective_iff.mpr hinj (List.append_cancel_left hclean)
    rw [hkey rest rfl hreadable, Option.some.inj ((hnames rest hreadable).symm.trans hrel)]

end Below

section Searches

variable {isDir : List Component → Bool} {canonicalize : List Component → Option (List Component)}
  {path : List Component}

/-- Reading a path from its end finds the deepest directory. -/
theorem deepest_existingUp {up : List Component} (hup : up.reverse <+: path)
    (hbelow : ∀ longer, longer <+: path → up.length < longer.length → isDir longer = false) :
    Deepest isDir path (existingUp isDir path up) := by
  induction up with
  | nil =>
    exact Or.inr ⟨rfl, fun above hsome habove => hbelow above habove (List.length_pos_iff.mpr hsome)⟩
  | cons last up ih =>
    rw [existingUp]
    split
    · rename_i hdir
      refine Or.inl ⟨by simp, hup, hdir, fun longer hlonger hfound => ?_⟩
      refine List.prefix_of_prefix_length_le hlonger hup ?_
      by_contra hlength
      rw [hbelow longer hlonger (by rw [List.length_reverse] at hlength; omega)] at hfound
      cases hfound
    · rename_i hdir
      refine ih ((List.reverse_cons ▸ List.prefix_append _ _).trans hup) fun longer hlonger hlength => ?_
      rcases Nat.lt_or_eq_of_le hlength with hlt | heq
      · exact hbelow longer hlonger hlt
      · have hsame : longer = (last :: up).reverse :=
          (List.prefix_of_prefix_length_le hlonger hup (by simp; omega)).eq_of_length (by simp; omega)
        exact hsame ▸ Bool.not_eq_true _ ▸ hdir

/-- The deepest directory at or above a path is the one found. -/
theorem deepest_iff {dir : List Component} : Deepest isDir path dir ↔ dir = existingAncestor isDir path := by
  have hfound : Deepest isDir path (existingAncestor isDir path) := by
    refine deepest_existingUp ((List.reverse_reverse path).symm ▸ List.prefix_rfl) fun longer hlonger hlength => ?_
    rw [List.length_reverse] at hlength
    exact absurd hlonger.length_le (Nat.not_le.mpr hlength)
  constructor
  · intro h
    rcases h with ⟨hne, hdir, his, hdeepest⟩ | ⟨rfl, hnone⟩
    · rcases hfound with ⟨-, hdir', his', hdeepest'⟩ | ⟨-, hnone⟩
      · exact (hdeepest' dir hdir his).eq_of_length ((hdeepest' dir hdir his).length_le.antisymm
          (hdeepest _ hdir' his').length_le)
      · rw [hnone dir hne hdir] at his
        cases his
    · rcases hfound with ⟨hne', hdir', his', -⟩ | ⟨heq, -⟩
      · rw [hnone _ hne' hdir'] at his'
        cases his'
      · exact heq.symm
  · rintro rfl
    exact hfound

/-- The longest part that has a spelling of the file system's is found, where names alone follow it. -/
theorem resolveUp_iff {up : List Component} {names : List OsStr} (hpath : path = up.reverse ++ names.map .normal)
    (hbelow : ∀ longer, longer <+: path → up.length < longer.length → canonicalize longer = none)
    {real : List Component} :
    resolveUp canonicalize up (names.map .normal) = some real ↔ Resolves canonicalize path real := by
  induction up generalizing names with
  | nil =>
    refine iff_of_false (by simp [resolveUp]) ?_
    rintro ⟨found, rest, own, rfl, hsome, hown, -, -⟩
    rw [hbelow found (List.prefix_append _ _) (List.length_pos_iff.mpr hsome)] at hown
    cases hown
  | cons last up ih =>
    have hlast : (last :: up).reverse <+: path := hpath ▸ List.prefix_append _ _
    -- a part that is no longer than another is a part of it
    have hlonger : ∀ found, found <+: path → up.length < found.length → (last :: up).reverse <+: found := by
      intro found hfound hlength
      exact List.prefix_of_prefix_length_le hlast hfound (by simp; omega)
    rw [resolveUp.eq_def]
    dsimp only
    cases hown : canonicalize (last :: up).reverse with
    | some own =>
      constructor
      · rintro heq
        obtain rfl := Option.some.inj heq
        refine ⟨_, names, own, hpath, by simp, hown, rfl, fun longer hlonger hlength => hbelow longer hlonger ?_⟩
        simpa using hlength
      · rintro ⟨found, rest, own', hsplit, hsome, hown', rfl, hlongest⟩
        have hfound : found <+: path := hsplit ▸ List.prefix_append _ _
        have hsame : found = (last :: up).reverse := by
          rcases Nat.lt_trichotomy found.length (last :: up).reverse.length with hlt | heq | hgt
          · rw [hlongest _ hlast hlt] at hown
            cases hown
          · exact (List.prefix_of_prefix_length_le hfound hlast heq.le).eq_of_length heq
          · rw [hbelow found hfound (by simpa using hgt)] at hown'
            cases hown'
        subst hsame
        rw [hown] at hown'
        obtain rfl := Option.some.inj hown'
        rw [List.append_cancel_left (hpath.symm.trans hsplit)]
    | none =>
      have hshort : ∀ longer, longer <+: path → up.length < longer.length → canonicalize longer = none := by
        intro longer hpart hlength
        rcases Nat.lt_or_eq_of_le hlength with hlt | heq
        · exact hbelow longer hpart hlt
        · have hsame := (hlonger longer hpart hlength).eq_of_length (by simp; omega)
          exact hsame ▸ hown
      cases last with
      | normal name =>
        have hsplit : path = up.reverse ++ (name :: names).map .normal := by simpa using hpath
        exact ih hsplit hshort
      | rootDir | curDir | parentDir =>
        refine iff_of_false (by simp) ?_
        rintro ⟨found, rest, own, hsplit, hsome, hown', -, -⟩
        have hfound : found <+: path := hsplit ▸ List.prefix_append _ _
        have hlength : found.length ≤ up.length := by
          by_contra hlong
          rw [hshort found hfound (Nat.not_le.mp hlong)] at hown'
          cases hown'
        -- the last component would be among the names after the part found
        have hmem := congrArg (fun part : List Component => part[up.length]?) (hsplit.symm.trans hpath)
        simp [List.getElem?_append_right hlength] at hmem

end Searches

namespace Checkouts

/-- What the file system and version control answer is from the root directory, and a spelling of the file system's
own has names only. -/
structure Absolute (w : Checkouts) : Prop where
  currentDir : Rooted w.currentDir
  findRoot : ∀ dir, Rooted dir → Rooted (w.findRoot dir).1
  canonicalize : ∀ path real, w.canonicalize path = some real →
    ∃ names : List OsStr, real = .rootDir :: names.map .normal

section Keyed

variable (w : Checkouts)

/-- The checkout of a path: that of the deepest directory at or above it. -/
def InCheckout (path top : List Component) (root : Root) : Prop :=
  ∃ dir, Deepest w.isDir path dir ∧ w.findRoot dir = (top, root)

/-- A path's key in a checkout: by the caller's spelling or, where that has none, by the file system's own of the path
and the checkout's root. -/
def KeyedAt (top path : List Component) (rel : String) : Prop :=
  SpelledBelow top path rel ∨ ((∀ other, ¬ SpelledBelow top path other) ∧ ∃ real realTop,
    Resolves w.canonicalize path real ∧ w.canonicalize top = some realTop ∧ SpelledBelow realTop real rel)

/-- The key of a path written: in the checkout of the directory it is written in. -/
def WrittenAt (path : String) (root : Root) (rel : String) : Prop :=
  ∃ top, w.InCheckout ((parentOf (w.absolute path)).getD (w.absolute path)) top root ∧
    w.KeyedAt top (w.absolute path) rel

/-- The path is not spelled out of the checkout it is written in, and back. -/
def StaysInside (path : String) : Prop :=
  ∀ top root, w.InCheckout ((parentOf (w.absolute path)).getD (w.absolute path)) top root →
    ¬ ClimbsOut top (w.absolute path)

/-- The key of a directory: that of its clean form in the checkout of that, or "." for the whole checkout. -/
def ScopedAt (dir : String) (wholeCheckout : Bool) (root : Root) (rel : String) : Prop :=
  ∃ top, w.InCheckout (cleanComponents (w.absolute dir)) top root ∧
    if wholeCheckout then rel = "." else w.KeyedAt top (cleanComponents (w.absolute dir)) rel

end Keyed

variable {w : Checkouts}

/-- A name or a step up is what a segment stands for. -/
theorem isMove_of_mem_segments {text : OsStr} {component : Component}
    (h : component ∈ (text.splitOn separator).filterMap componentOf) : component.IsMove := by
  obtain ⟨segment, _, hsegment⟩ := List.mem_filterMap.mp h
  rcases componentOf_eq_some hsegment with rfl | ⟨rfl, _⟩ <;> rfl

/-- Past its root directory, or a dot it starts with, a path has names and steps up. -/
theorem isMove_of_mem_components {text : OsStr} {component : Component} (h : component ∈ components text)
    (hroot : component ≠ .rootDir) (hdot : component ≠ .curDir) : component.IsMove := by
  rw [components] at h
  rcases List.mem_append.mp h with hstart | hsegment
  · split at hstart
    · exact absurd (List.mem_singleton.mp hstart) hroot
    · split at hstart
      · exact absurd (List.mem_singleton.mp hstart) hdot
      · cases hstart
  · exact isMove_of_mem_segments hsegment

/-- Only a path that starts at the root directory has it among its components. -/
theorem head_of_rootDir_mem {text : OsStr} (h : .rootDir ∈ components text) :
    components text = .rootDir :: (text.splitOn separator).filterMap componentOf := by
  rw [components] at h ⊢
  have hsegments : .rootDir ∉ (text.splitOn separator).filterMap componentOf := fun hmem => by
    cases isMove_of_mem_segments hmem
  rcases List.mem_append.mp h with hstart | hmem
  · split at hstart
    · rename_i hhead
      rw [if_pos hhead]
      rfl
    · split at hstart
      · cases List.mem_singleton.mp hstart
      · cases hstart
  · exact absurd hmem hsegments

/-- Every path is taken from the root directory. -/
theorem Absolute.rooted (hw : w.Absolute) (path : String) : Rooted (w.absolute path) := by
  rw [Checkouts.absolute]
  split
  · rename_i hhead
    exact ⟨_, head_of_rootDir_mem (List.mem_of_mem_head? hhead), fun component => isMove_of_mem_segments⟩
  · rename_i hhead
    obtain ⟨rest, hrest, hmoves⟩ := hw.currentDir
    rw [hrest]
    refine ⟨_, rfl, fun component hcomponent => ?_⟩
    rcases List.mem_append.mp hcomponent with hold | hnew
    · exact hmoves component hold
    · obtain ⟨hmem, hdot⟩ := List.mem_filter.mp hnew
      refine isMove_of_mem_components hmem ?_ (bne_iff_ne.mp hdot)
      rintro rfl
      rw [head_of_rootDir_mem hmem] at hhead
      exact hhead rfl

/-- A nonempty part of a path from the root directory is one. -/
theorem rooted_of_prefix {path part : List Component} (hpath : Rooted path) (hpart : part <+: path)
    (hsome : part ≠ []) : Rooted part := by
  obtain ⟨rest, rfl, hmoves⟩ := hpath
  obtain ⟨first, more, rfl⟩ := List.exists_cons_of_ne_nil hsome
  obtain ⟨rfl, hmore⟩ := List.cons_prefix_cons.mp hpart
  exact ⟨more, rfl, fun component hcomponent => hmoves component (hmore.subset hcomponent)⟩

/-- The checkout of a path from the root directory is one. -/
theorem Absolute.inCheckout (hw : w.Absolute) {path top : List Component} {root : Root} (hpath : Rooted path)
    (h : w.InCheckout path top root) : Rooted top := by
  obtain ⟨dir, hdir, hfound⟩ := h
  have hrooted : Rooted dir := by
    rcases hdir with ⟨hsome, hpart, -⟩ | ⟨rfl, -⟩
    · exact rooted_of_prefix hpath hpart hsome
    · exact hpath
  have hfindRoot := hw.findRoot dir hrooted
  rwa [hfound] at hfindRoot

/-- The checkout found for a path is its checkout. -/
theorem inCheckout_iff {path top : List Component} {root : Root} :
    w.InCheckout path top root ↔ w.findRoot (existingAncestor w.isDir path) = (top, root) := by
  simp [InCheckout, deepest_iff]

/-- Names below the root directory do not climb. -/
theorem not_climbsOut_of_names {top : List Component} {names : List OsStr} (htop : Rooted top) :
    ¬ ClimbsOut top (.rootDir :: names.map .normal) := by
  rintro ⟨rest, hrest, hclimbs⟩
  obtain ⟨first, rfl, -⟩ := htop
  obtain ⟨-, hnames⟩ := List.cons.inj hrest
  have hall : ∀ component ∈ rest, ∃ name, component = .normal name := by
    intro component hcomponent
    have hmem : component ∈ names.map Component.normal := hnames.symm ▸ List.mem_append_right first hcomponent
    obtain ⟨name, -, heq⟩ := List.mem_map.mp hmem
    exact ⟨name, heq.symm⟩
  have hzero : climb (movesOf rest) = 0 := by
    clear hrest hclimbs hnames
    induction rest with
    | nil => rfl
    | cons component rest ih =>
      obtain ⟨hfirst, hrest⟩ := List.forall_mem_cons.mp hall
      obtain ⟨name, rfl⟩ := hfirst
      change climb (movesOf rest) - 1 = 0
      rw [ih hrest]
  exact hclimbs hzero

/-- A path that does not climb out of a root has the key found for it, and no other. -/
theorem Absolute.keyedAt_iff (hw : w.Absolute) {path top : List Component} (hpath : Rooted path) (htop : Rooted top)
    (hstays : ¬ ClimbsOut top path) {rel : String} : w.relUnderRoot path top = .ok rel ↔ w.KeyedAt top path rel := by
  rw [relUnderRoot, KeyedAt]
  cases hspelled : cleanUnder path top with
  | ok key =>
    have hbelow := (cleanUnder_iff hpath htop hstays).mp hspelled
    dsimp only
    rw [← hspelled, cleanUnder_iff hpath htop hstays]
    exact (or_iff_left fun hother => hother.1 key hbelow).symm
  | error reason =>
    have hnone : ∀ other, ¬ SpelledBelow top path other := fun other hbelow => by
      rw [(cleanUnder_iff hpath htop hstays).mpr hbelow] at hspelled
      cases hspelled
    have hresolves : ∀ real, resolveUp w.canonicalize path.reverse [] = some real ↔
        Resolves w.canonicalize path real := fun real => by
      change resolveUp w.canonicalize path.reverse (([] : List OsStr).map .normal) = some real ↔ _
      refine resolveUp_iff (by simp) fun longer hlonger hlength => ?_
      rw [List.length_reverse] at hlength
      exact absurd hlonger.length_le (Nat.not_le.mpr hlength)
    have hreal : ∀ real realTop, Resolves w.canonicalize path real → w.canonicalize top = some realTop →
        (cleanUnder real realTop = .ok rel ↔ SpelledBelow realTop real rel) := by
      rintro real realTop ⟨up, names, own, -, -, hown, rfl, -⟩ hownTop
      obtain ⟨upNames, rfl⟩ := hw.canonicalize _ _ hown
      obtain ⟨topNames, rfl⟩ := hw.canonicalize _ _ hownTop
      rw [List.cons_append, ← List.map_append]
      exact cleanUnder_iff (rooted_names _) (rooted_names _) (not_climbsOut_of_names (rooted_names _))
    rw [or_iff_right (hnone rel), and_iff_right hnone]
    dsimp only
    cases hup : resolveUp w.canonicalize path.reverse [] with
    | none =>
      refine iff_of_false nofun ?_
      rintro ⟨real, -, hresolved, -⟩
      rw [(hresolves real).mpr hresolved] at hup
      cases hup
    | some real =>
      have hresolved := (hresolves real).mp hup
      cases hownTop : w.canonicalize top with
      | none =>
        refine iff_of_false nofun ?_
        rintro ⟨_, _, _, hother, _⟩
        cases hother
      | some realTop =>
        dsimp only
        rw [hreal real realTop hresolved hownTop]
        constructor
        · exact fun hbelow => ⟨real, realTop, hresolved, rfl, hbelow⟩
        · rintro ⟨real', realTop', hresolved', heq, hbelow⟩
          obtain rfl := Option.some.inj heq
          rw [← hresolves, hup] at hresolved'
          rwa [Option.some.inj hresolved']

/-- The key of a directory is the one found for it. -/
theorem Absolute.scopedAt_iff (hw : w.Absolute) {dir : String} {wholeCheckout : Bool} {root : Root} {rel : String} :
    w.scopeKey dir wholeCheckout = .ok (root, rel) ↔ w.ScopedAt dir wholeCheckout root rel := by
  obtain ⟨names, hclean⟩ := (hw.rooted dir).clean
  have hrooted : Rooted (cleanComponents (w.absolute dir)) := hclean ▸ rooted_names names
  rw [scopeKey]
  rcases hfound : w.findRoot (existingAncestor w.isDir (cleanComponents (w.absolute dir))) with ⟨top, found⟩
  have htop := hw.inCheckout hrooted (inCheckout_iff.mpr hfound)
  have hkeyed (key : String) : w.relUnderRoot (cleanComponents (w.absolute dir)) top = .ok key ↔
      w.KeyedAt top (cleanComponents (w.absolute dir)) key :=
    hw.keyedAt_iff hrooted htop (hclean ▸ not_climbsOut_of_names htop)
  cases wholeCheckout with
  | true =>
    constructor
    · intro h
      obtain ⟨rfl, rfl⟩ := Prod.mk.inj (Except.ok.inj h)
      exact ⟨top, inCheckout_iff.mpr hfound, rfl⟩
    · rintro ⟨top', hin, hrel⟩
      obtain ⟨rfl, rfl⟩ := Prod.mk.inj (hfound.symm.trans (inCheckout_iff.mp hin))
      exact congrArg (fun rel => Except.ok (found, rel)) hrel.symm
  | false =>
    constructor
    · intro h
      obtain ⟨key, hkey, heq⟩ := bind_eq_ok.mp h
      obtain ⟨rfl, rfl⟩ := Prod.mk.inj (Except.ok.inj heq)
      exact ⟨top, inCheckout_iff.mpr hfound, (hkeyed key).mp hkey⟩
    · rintro ⟨top', hin, hrel⟩
      obtain ⟨rfl, rfl⟩ := Prod.mk.inj (hfound.symm.trans (inCheckout_iff.mp hin))
      exact bind_eq_ok.mpr ⟨rel, (hkeyed rel).mpr hrel, rfl⟩

/-- The directory a path from the root directory is written in is one. -/
theorem rooted_parent {path : List Component} (h : Rooted path) : Rooted ((parentOf path).getD path) := by
  rw [parentOf]
  split
  · exact h
  · exact h
  · rename_i last hroot hlast
    obtain ⟨rest, rfl, hmoves⟩ := h
    refine rooted_of_prefix ⟨rest, rfl, hmoves⟩ (List.dropLast_prefix _) fun hnil => ?_
    cases rest with
    | nil => exact hroot (Option.some.inj hlast).symm
    | cons first rest => cases hnil

/-- A path written that stays inside its checkout has the key found for it. -/
theorem Absolute.writtenAt (hw : w.Absolute) {path : String} (hstays : w.StaysInside path) {root : Root} {rel : String}
    (h : w.ctx path = .ok (root, rel)) : w.WrittenAt path root rel := by
  have hpath := hw.rooted path
  rw [ctx] at h
  rcases hfound : w.findRoot (existingAncestor w.isDir ((parentOf (w.absolute path)).getD (w.absolute path))) with
    ⟨top, found⟩
  rw [hfound] at h
  obtain ⟨key, hkey, heq⟩ := bind_eq_ok.mp h
  obtain ⟨rfl, rfl⟩ := Prod.mk.inj (Except.ok.inj heq)
  have hin := inCheckout_iff.mpr hfound
  exact ⟨top, hin, (hw.keyedAt_iff hpath (hw.inCheckout (rooted_parent hpath) hin) (hstays top found hin)).mp hkey⟩

end Checkouts

end Devkit.Locks
