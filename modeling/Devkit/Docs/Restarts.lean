import Devkit.Docs.Planned
import Devkit.Docs.Recovery
import Mathlib.Data.List.Pairwise

/-!
# Runs of the upgrade that are cut short

However often an upgrade is cut short, and wherever, each library of the cache is either where it was and as it was,
or in the directory planned for it with every checkout within reach. So the next run plans the moves that are left,
makes them, and heals what was moved before; once a run is done every checkout is at the commit it was at.
-/

namespace Devkit.Docs

open Devkit.Library Devkit.Library.Routine Std

section Holding

/-- The commits of a library's checkouts, as its entries record them. -/
def Lib.want (lib : Lib) : Wanted := fun checkout => lib.admin[checkout]?.bind Entry.head

/-- A library as git leaves it: an entry and the checkout of its name point at each other and the clone has the commit,
and a checkout that git owns has its entry. -/
structure Lib.Sound (lib : Lib) (site : Site) : Prop where
  admin : ∀ {name : String} {entry : Entry}, lib.admin[name]? = some entry →
    ∃ commit ∈ lib.commits, entry = ⟨(site, name), some commit⟩ ∧ lib.trees[name]? = some (.names site name)
  trees : ∀ {checkout : String} {git : GitFile}, lib.trees[checkout]? = some git →
    git = .absent ∨ git = .names site checkout ∧ ∃ entry, lib.admin[checkout]? = some entry

variable {lib : Lib} {site origin : Site} {journal : Journal} {checkout commit : String}

/-- A sound library has every checkout where it is wanted. -/
theorem Lib.Sound.at (h : lib.Sound site) (hwant : lib.want checkout = some commit) :
    commit ∈ lib.commits ∧ lib.At site checkout commit := by
  obtain ⟨entry, hentry, hhead⟩ := Option.bind_eq_some_iff.mp hwant
  obtain ⟨found, hfound, rfl, htree⟩ := h.admin hentry
  obtain rfl := Option.some.inj hhead
  exact ⟨hfound, htree, hentry⟩

/-- A sound library can be had back wherever it is moved. -/
theorem Lib.Sound.kept (h : lib.Sound origin) (hjournal : ∀ entry ∈ journal, lib.want entry.1 = some entry.2) :
    Kept lib.want origin site lib journal where
  commits hwant := (h.at hwant).1
  admin := by
    intro name entry hentry
    obtain ⟨commit, _, rfl, _⟩ := h.admin hentry
    refine ⟨origin, commit, rfl, ?_, Or.inr rfl⟩
    rw [Lib.want, hentry]
    rfl
  trees := by
    intro checkout git htree
    rcases h.trees htree with rfl | ⟨rfl, entry, hentry⟩
    · exact Or.inl rfl
    · obtain ⟨commit, _, rfl, _⟩ := h.admin hentry
      refine Or.inr ⟨origin, commit, rfl, ?_, Or.inr rfl, fun other hother => ?_⟩
      · rw [Lib.want, hentry]
        rfl
      · obtain rfl := Option.some.inj (hentry.symm.trans hother)
        rfl
  recorded hmem := hjournal _ hmem
  kept hwant := Or.inr ⟨origin, (h.at hwant).2⟩

/-- The cache holds a library that a survey finds, and the directory it ends up in. -/
inductive CacheDir.Holds (cache : CacheDir) : Site → String → Lib → Prop
  | nested {scope member dirname lib} : (scope, member) ∈ cache.survey.sources →
      targetOf (scope, member) = .ok dirname → cache.libs (.nested scope member) = some lib →
        cache.Holds (.nested scope member) dirname lib
  | flat {dirname lib} : dirname ∈ cache.survey.libraries → cache.libs (.flat dirname) = some lib →
      cache.Holds (.flat dirname) dirname lib

/-- A cache that can be brought up to date and has not been touched yet: the libraries are as git leaves them and can be
locked, no journal is about, and every move can be planned. -/
structure CacheDir.Intact (cache : CacheDir) : Prop where
  entries : cache.entries.Nodup
  members : ∀ dir, (cache.members dir).Nodup
  rooted : ∀ {dirname}, cache.libs (.flat dirname) ≠ none → dirname ∈ cache.entries
  sound : ∀ {origin dirname lib}, cache.Holds origin dirname lib → lib.Sound origin
  journals : ∀ {origin dirname lib}, cache.Holds origin dirname lib → cache.journals dirname = none
  locks : ∀ {origin dirname lib}, cache.Holds origin dirname lib → ∃ lock, lockPathOfDir dirname = .ok lock
  plan : ∃ renames, planRenames cache cache.survey = .ok renames

end Holding

section Places

variable {before : CacheDir} {origin other : Site} {dirname : String} {lib lib' : Lib}

/-- A library ends up in one directory. -/
theorem CacheDir.Holds.dirname_unique {dirname' : String} (h : before.Holds origin dirname lib)
    (h' : before.Holds origin dirname' lib') : dirname = dirname' := by
  cases h with
  | nested _ htarget _ =>
    cases h' with
    | nested _ htarget' _ => exact Except.ok.inj (htarget.symm.trans htarget')
  | flat _ _ =>
    cases h' with
    | flat _ _ => rfl

/-- What is held is there. -/
theorem CacheDir.Holds.there (h : before.Holds origin dirname lib) : before.libs origin = some lib := by
  cases h with
  | nested _ _ hlib => exact hlib
  | flat _ hlib => exact hlib

/-- A library whose place is a directory of the root stays in it. -/
theorem CacheDir.Holds.eq_of_flat {dir : String} (h : before.Holds (.flat dir) dirname lib) : dir = dirname := by
  cases h with
  | flat _ _ => rfl

/-- The moves of a cache that is intact can be planned. -/
theorem CacheDir.Intact.plannable (h : before.Intact) :
    Plannable before before.noMoves.claimed before.survey.sources :=
  have ⟨_, hplan⟩ := h.plan
  plannable_of_planRenames hplan

/-- A directory that a nested library ends up in is new, and no other folds to its name. -/
theorem CacheDir.Intact.fresh (h : before.Intact) {scope member : String}
    (hholds : before.Holds (.nested scope member) dirname lib) :
    dirname ∉ before.entries ∧ ∀ dir ∈ before.entries, foldKey dir ≠ foldKey dirname := by
  cases hholds with
  | nested hsource htarget _ =>
    obtain ⟨target, htarget', hfresh, hfree⟩ := h.plannable.named _ hsource
    obtain rfl := Except.ok.inj (htarget.symm.trans htarget')
    exact ⟨hfresh, fun dir hdir =>
      hfree _ (List.mem_reverse.mpr (List.mem_map_of_mem (f := fun dir => (foldKey dir, dir)) hdir))⟩

/-- A nested library and another end up in directories that fold to different names. -/
theorem CacheDir.Intact.apart (h : before.Intact) {scope member dirname' : String}
    (hholds : before.Holds (.nested scope member) dirname lib) (hother : before.Holds other dirname' lib')
    (hne : .nested scope member ≠ other) : foldKey dirname ≠ foldKey dirname' := by
  cases hother with
  | flat hlibrary _ => exact ((h.fresh hholds).2 _ (mem_libraries.mp hlibrary).1.1).symm
  | nested hsource' htarget' _ =>
    cases hholds with
    | nested hsource htarget _ =>
      refine h.plannable.apart.forall hsource hsource' (fun heq => hne ?_) htarget htarget'
      rw [(Prod.mk.inj heq).1, (Prod.mk.inj heq).2]

/-- Two libraries end up in different directories. -/
theorem CacheDir.Intact.origin_unique (h : before.Intact) (hholds : before.Holds origin dirname lib)
    (hother : before.Holds other dirname lib') : origin = other := by
  by_contra hne
  cases origin with
  | nested scope member => exact h.apart hholds hother hne rfl
  | flat dir =>
    cases other with
    | nested scope member => exact h.apart hother hholds (Ne.symm hne) rfl
    | flat dir' => exact hne (congrArg Site.flat (hholds.eq_of_flat.trans hother.eq_of_flat.symm))

/-- Where a survey finds a library, the cache to be brought up to date holds one. -/
theorem CacheDir.Intact.holds_of_source (h : before.Intact) {scope member : String}
    (hsource : (scope, member) ∈ before.survey.sources) :
    ∃ dirname lib, before.Holds (.nested scope member) dirname lib := by
  obtain ⟨target, htarget, _⟩ := h.plannable.named _ hsource
  obtain ⟨lib, hlib⟩ := Option.isSome_iff_exists.mp (mem_sources.mp hsource).2.2.2
  exact ⟨target, lib, .nested hsource htarget hlib⟩

/-- A directory that holds nested libraries is none that a library ends up in. -/
theorem CacheDir.Intact.scope_ne (h : before.Intact) {scope member : String}
    (hsource : (scope, member) ∈ before.survey.sources) (hholds : before.Holds origin dirname lib) :
    scope ≠ dirname := by
  rintro rfl
  obtain ⟨⟨hentry, _⟩, hnone, _⟩ := mem_sources.mp hsource
  cases hholds with
  | flat _ hlib => exact Option.some_ne_none lib (hlib.symm.trans hnone)
  | nested hsource' htarget hlib => exact (h.fresh (.nested hsource' htarget hlib)).1 hentry

end Places

section Invariant

/-- The library has not been moved: it is where it was and as it was, and nothing is in its way. -/
structure CacheDir.Waiting (cache : CacheDir) (origin : Site) (dirname : String) (lib : Lib) : Prop where
  found : ∃ scope member, origin = .nested scope member ∧ scope ∈ cache.entries ∧ member ∈ cache.members scope
  there : cache.libs origin = some lib
  free : cache.libs (.flat dirname) = none
  fresh : dirname ∉ cache.entries
  recorded : ∀ entry ∈ (cache.journals dirname).getD [], lib.want entry.1 = some entry.2

/-- The library is in its directory, with every checkout within reach. -/
structure CacheDir.Placed (cache : CacheDir) (origin : Site) (dirname : String) (want : Wanted) : Prop where
  gone : origin ≠ .flat dirname → cache.libs origin = none
  listed : dirname ∈ cache.entries
  kept : ∃ lib, cache.libs (.flat dirname) = some lib ∧
    Kept want origin (.flat dirname) lib ((cache.journals dirname).getD [])

/-- The cache can still be brought up to date: each library is where it was or where it is to be, nothing else has
come or gone, and the libraries of the directories present are there. -/
structure Recoverable (before : CacheDir) (present : List String) (cache : CacheDir) : Prop where
  entries : cache.entries.Nodup
  members : ∀ dir, (cache.members dir).Nodup
  listed : ∀ dir ∈ cache.entries, dir ∈ before.entries ∨ ∃ origin lib, before.Holds origin dir lib
  fewer : ∀ dir, ∀ member ∈ cache.members dir, member ∈ before.members dir
  nested : ∀ {scope member lib}, cache.libs (.nested scope member) = some lib →
    before.libs (.nested scope member) = some lib
  flat : ∀ {dir}, before.libs (.flat dir) ≠ none → cache.libs (.flat dir) ≠ none
  known : ∀ {dir}, cache.libs (.flat dir) ≠ none → before.libs (.flat dir) ≠ none ∨ ∃ origin lib, before.Holds origin dir lib
  present : ∀ dir ∈ present, cache.libs (.flat dir) ≠ none
  each : ∀ {origin dirname lib}, before.Holds origin dirname lib →
    cache.Waiting origin dirname lib ∨ cache.Placed origin dirname lib.want

variable {before cache cache' : CacheDir} {origin : Site} {dirname scope member : String} {lib : Lib} {want : Wanted}
  {present : List String}

/-- A library that has not been moved stays so where nothing about it changes. -/
theorem CacheDir.Waiting.congr (h : cache.Waiting origin dirname lib)
    (hfound : ∀ scope member, origin = .nested scope member → scope ∈ cache.entries → member ∈ cache.members scope →
      scope ∈ cache'.entries ∧ member ∈ cache'.members scope)
    (hthere : cache'.libs origin = cache.libs origin) (hfree : cache'.libs (.flat dirname) = cache.libs (.flat dirname))
    (hfresh : dirname ∈ cache'.entries → dirname ∈ cache.entries)
    (hjournals : cache'.journals dirname = cache.journals dirname) : cache'.Waiting origin dirname lib where
  found := by
    obtain ⟨scope, member, heq, hscope, hmember⟩ := h.found
    exact ⟨scope, member, heq, hfound scope member heq hscope hmember⟩
  there := hthere.trans h.there
  free := hfree.trans h.free
  fresh := fun hmem => h.fresh (hfresh hmem)
  recorded := by rw [hjournals]; exact h.recorded

/-- A library that is in its directory stays so where nothing about it changes. -/
theorem CacheDir.Placed.congr (h : cache.Placed origin dirname want)
    (hgone : origin ≠ .flat dirname → cache.libs origin = none → cache'.libs origin = none)
    (hlisted : dirname ∈ cache.entries → dirname ∈ cache'.entries)
    (hthere : cache'.libs (.flat dirname) = cache.libs (.flat dirname))
    (hjournals : cache'.journals dirname = cache.journals dirname) : cache'.Placed origin dirname want where
  gone := fun hne => hgone hne (h.gone hne)
  listed := hlisted h.listed
  kept := by rw [hthere, hjournals]; exact h.kept

/-- A cache that has not been touched can be brought up to date. -/
theorem CacheDir.Intact.recoverable (h : before.Intact) : Recoverable before [] before where
  entries := h.entries
  members := h.members
  listed := fun _ hdir => Or.inl hdir
  fewer := fun _ _ hmember => hmember
  nested := id
  flat := id
  known := Or.inl
  present := fun _ hdir => absurd hdir List.not_mem_nil
  each := by
    intro origin dirname lib hholds
    have hjournal := h.journals hholds
    have hrecorded : ∀ entry ∈ (before.journals dirname).getD [], lib.want entry.1 = some entry.2 := by
      rw [hjournal]
      exact fun _ hmem => absurd hmem List.not_mem_nil
    cases hholds with
    | nested hsource htarget hlib =>
      have hfresh := (h.fresh (.nested hsource htarget hlib)).1
      obtain ⟨⟨hscope, _⟩, _, hmember, _⟩ := mem_sources.mp hsource
      refine Or.inl ⟨⟨_, _, rfl, hscope, hmember⟩, hlib, ?_, hfresh, hrecorded⟩
      by_contra hthere
      exact hfresh (h.rooted hthere)
    | flat hlibrary hlib =>
      have hsound := h.sound (.flat hlibrary hlib)
      exact Or.inr ⟨fun hne => absurd rfl hne, (mem_libraries.mp hlibrary).1.1, lib, hlib, hsound.kept hrecorded⟩

end Invariant

section Survey

variable {before cache : CacheDir} {origin : Site} {dirname scope member : String} {lib : Lib} {present : List String}
  {renames : List Rename}

/-- What was not moved was not placed. -/
theorem CacheDir.Waiting.of_there (hwait : cache.Waiting origin dirname lib ∨ cache.Placed origin dirname lib.want)
    (hne : origin ≠ .flat dirname) (hthere : cache.libs origin ≠ none) : cache.Waiting origin dirname lib :=
  hwait.resolve_right fun hplaced => hthere (hplaced.gone hne)

/-- A library whose directory is there is in it. -/
theorem CacheDir.Placed.of_there (hwait : cache.Waiting origin dirname lib ∨ cache.Placed origin dirname lib.want)
    (hthere : cache.libs (.flat dirname) ≠ none) : cache.Placed origin dirname lib.want :=
  hwait.resolve_left fun hwaiting => hthere hwaiting.free

/-- A survey finds no nested library that was not there before. -/
theorem Recoverable.mem_sources (h : Recoverable before present cache)
    (hsource : (scope, member) ∈ cache.survey.sources) : (scope, member) ∈ before.survey.sources := by
  obtain ⟨⟨hentry, hcontrol⟩, hnone, hmember, hthere⟩ := Docs.mem_sources.mp hsource
  obtain ⟨lib, hlib⟩ := Option.isSome_iff_exists.mp hthere
  have hempty : before.libs (.flat scope) = none := by
    by_contra hsome
    exact h.flat hsome hnone
  refine Docs.mem_sources.mpr ⟨⟨?_, hcontrol⟩, hempty, h.fewer _ _ hmember, ?_⟩
  · rcases h.listed scope hentry with hbefore | ⟨origin, other, hholds⟩
    · exact hbefore
    · rcases h.each hholds with hwaiting | hplaced
      · exact absurd hentry hwaiting.fresh
      · obtain ⟨_, hsome, _⟩ := hplaced.kept
        rw [hnone] at hsome
        cases hsome
  · rw [h.nested hlib]
    rfl

/-- A survey finds every library that was not moved. -/
theorem CacheDir.Intact.mem_sources (hintact : before.Intact) (h : Recoverable before present cache)
    (hholds : before.Holds (.nested scope member) dirname lib)
    (hwaiting : cache.Waiting (.nested scope member) dirname lib) : (scope, member) ∈ cache.survey.sources := by
  obtain ⟨_, _, heq, hscope, hmember⟩ := hwaiting.found
  obtain ⟨rfl, rfl⟩ := Site.nested.inj heq
  cases hholds with
  | nested hsource htarget hlib =>
    obtain ⟨⟨_, hcontrol⟩, hnone, _⟩ := Docs.mem_sources.mp hsource
    refine Docs.mem_sources.mpr ⟨⟨hscope, hcontrol⟩, ?_, hmember, ?_⟩
    · by_contra hthere
      rcases h.known hthere with hbefore | ⟨_, _, hother⟩
      · exact hbefore hnone
      · exact hintact.scope_ne hsource hother rfl
    · rw [hwaiting.there]
      rfl

/-- The directory of a library is not the registry's. -/
theorem CacheDir.Holds.isControl (h : before.Holds origin dirname lib) : Docs.isControl dirname = false := by
  cases h with
  | nested _ htarget _ => exact isControl_of_libDir htarget
  | flat hlibrary _ => exact (mem_libraries.mp hlibrary).1.2

/-- A survey finds every library that is in its directory. -/
theorem CacheDir.Placed.mem_libraries (h : cache.Placed origin dirname lib.want)
    (hholds : before.Holds origin dirname lib) : dirname ∈ cache.survey.libraries := by
  obtain ⟨_, hthere, _⟩ := h.kept
  refine Docs.mem_libraries.mpr ⟨⟨h.listed, hholds.isControl⟩, ?_⟩
  rw [hthere]
  rfl

/-- A survey finds no library in a directory where none is to end up. -/
theorem Recoverable.holds_of_library (hintact : before.Intact) (h : Recoverable before present cache)
    (hlibrary : dirname ∈ cache.survey.libraries) : ∃ origin lib, before.Holds origin dirname lib := by
  obtain ⟨⟨_, hcontrol⟩, hthere⟩ := mem_libraries.mp hlibrary
  rcases h.known (Option.isSome_iff_ne_none.mp hthere) with hbefore | hholds
  · obtain ⟨lib, hlib⟩ := Option.ne_none_iff_exists'.mp hbefore
    have hsome : (before.libs (.flat dirname)).isSome = true := Option.isSome_iff_ne_none.mpr hbefore
    exact ⟨_, lib, .flat (mem_libraries.mpr ⟨⟨hintact.rooted hbefore, hcontrol⟩, hsome⟩) hlib⟩
  · exact hholds

/-- The moves that are left can be planned. -/
theorem Recoverable.plannable (hintact : before.Intact) (h : Recoverable before present cache) :
    Plannable cache cache.noMoves.claimed cache.survey.sources := by
  have hwaits {scope member : String} (hsource : (scope, member) ∈ cache.survey.sources) :
      ∃ dirname lib, before.Holds (.nested scope member) dirname lib ∧ targetOf (scope, member) = .ok dirname ∧
        cache.Waiting (.nested scope member) dirname lib := by
    obtain ⟨dirname, lib, hholds⟩ := hintact.holds_of_source (h.mem_sources hsource)
    have hthere := Option.isSome_iff_ne_none.mp (Docs.mem_sources.mp hsource).2.2.2
    have htarget : targetOf (scope, member) = .ok dirname := by
      cases hholds with
      | nested _ htarget _ => exact htarget
    exact ⟨dirname, lib, hholds, htarget, .of_there (h.each hholds) (by simp) hthere⟩
  constructor
  · rintro ⟨scope, member⟩ hsource
    obtain ⟨dirname, lib, hholds, htarget, hwaiting⟩ := hwaits hsource
    refine ⟨dirname, htarget, hwaiting.fresh, fun claim hclaim => ?_⟩
    obtain ⟨dir, hdir, rfl⟩ := List.mem_map.mp (List.mem_reverse.mp hclaim)
    rcases h.listed dir hdir with hbefore | ⟨other, lib', hother⟩
    · exact (hintact.fresh hholds).2 dir hbefore
    · by_cases hsame : .nested scope member = other
      · subst hsame
        obtain rfl := hholds.dirname_unique hother
        exact absurd hdir hwaiting.fresh
      · exact (hintact.apart hholds hother hsame).symm
  · refine (nodup_sources h.entries h.members).imp_of_mem ?_
    rintro ⟨scope, member⟩ ⟨scope', member'⟩ hsource hsource' hne target target' htarget htarget'
    obtain ⟨dirname, lib, hholds, hdirname, _⟩ := hwaits hsource
    obtain ⟨dirname', lib', hholds', hdirname', _⟩ := hwaits hsource'
    obtain rfl := Except.ok.inj (hdirname.symm.trans htarget)
    obtain rfl := Except.ok.inj (hdirname'.symm.trans htarget')
    refine hintact.apart hholds hholds' fun heq => hne ?_
    obtain ⟨rfl, rfl⟩ := Site.nested.inj heq
    rfl

end Survey

section Changes

variable {before cache : CacheDir} {origin : Site} {dirname scope member : String} {lib : Lib} {present : List String}

/-- Another library's directory is another place. -/
theorem CacheDir.Holds.flat_ne (h : before.Holds origin dirname lib) {dir : String} (hne : dirname ≠ dir) :
    origin ≠ .flat dir := by
  rintro rfl
  exact hne h.eq_of_flat.symm

section Fields

variable {shelf : Shelf} {site : Site} {rename : Rename} {dir name : String}

/-- The library that was worked on is put back. -/
theorem CacheDir.libs_putBack_self : (cache.putBack dirname shelf).libs (.flat dirname) = some shelf.lib :=
  Function.update_self _ _ _

/-- The other libraries stay as they are. -/
theorem CacheDir.libs_putBack (hne : site ≠ .flat dirname) : (cache.putBack dirname shelf).libs site = cache.libs site :=
  Function.update_of_ne hne _ _

/-- So is its journal. -/
theorem CacheDir.journals_putBack_self : (cache.putBack dirname shelf).journals dirname = shelf.journal :=
  Function.update_self _ _ _

/-- So do the other journals. -/
theorem CacheDir.journals_putBack (hne : dir ≠ dirname) :
    (cache.putBack dirname shelf).journals dir = cache.journals dir := Function.update_of_ne hne _ _

/-- What a move does to the libraries. -/
theorem CacheDir.libs_of_moved : (cache.moved rename lib).libs =
    Function.update (Function.update cache.libs (.flat rename.target) (some lib)) (.nested rename.scope rename.member)
      none := rfl

/-- A library that is moved is in its directory. -/
theorem CacheDir.libs_moved_target : (cache.moved rename lib).libs (.flat rename.target) = some lib := by
  rw [libs_of_moved, Function.update_of_ne (by simp), Function.update_self]

/-- It is not where it was. -/
theorem CacheDir.libs_moved_source : (cache.moved rename lib).libs (.nested rename.scope rename.member) = none :=
  Function.update_self _ _ _

/-- The libraries of other places stay there. -/
theorem CacheDir.libs_moved (htarget : site ≠ .flat rename.target)
    (hsource : site ≠ .nested rename.scope rename.member) : (cache.moved rename lib).libs site = cache.libs site := by
  rw [libs_of_moved, Function.update_of_ne hsource, Function.update_of_ne htarget]

/-- One member of one scope is gone. -/
theorem CacheDir.members_moved : (cache.moved rename lib).members dir =
    if dir = rename.scope then (cache.members dir).filter fun member => member != rename.member
    else cache.members dir := by
  rw [show (cache.moved rename lib).members = Function.update cache.members rename.scope _ from rfl,
    Function.update_apply]
  split
  · rename_i heq
    rw [heq]
  · rfl

/-- The members that are left were there. -/
theorem CacheDir.mem_of_mem_members_moved (h : name ∈ (cache.moved rename lib).members dir) :
    name ∈ cache.members dir := by
  rw [members_moved] at h
  split at h
  · exact (List.mem_filter.mp h).1
  · exact h

/-- All other members are left. -/
theorem CacheDir.mem_members_moved (h : name ∈ cache.members dir)
    (hne : Site.nested dir name ≠ .nested rename.scope rename.member) :
    name ∈ (cache.moved rename lib).members dir := by
  rw [members_moved]
  split
  · rename_i heq
    refine List.mem_filter.mpr ⟨h, bne_iff_ne.mpr fun hname => hne ?_⟩
    rw [heq, hname]
  · exact h

end Fields

/-- Recording the commits of a library that has not been moved. -/
theorem Recoverable.record (hintact : before.Intact) (h : Recoverable before present cache)
    (hholds : before.Holds origin dirname lib) (hwaiting : cache.Waiting origin dirname lib) {record : Journal}
    (hrecord : ∀ entry ∈ record, lib.want entry.1 = some entry.2) :
    Recoverable before present
      { cache with journals := Function.update cache.journals dirname (some record) } where
  entries := h.entries
  members := h.members
  listed := h.listed
  fewer := h.fewer
  nested := h.nested
  flat := h.flat
  known := h.known
  present := h.present
  each := by
    intro other dir lib' hother
    by_cases hsame : dir = dirname
    · subst hsame
      obtain rfl := hintact.origin_unique hholds hother
      obtain rfl := Option.some.inj (hholds.there.symm.trans hother.there)
      refine Or.inl ⟨hwaiting.found, hwaiting.there, hwaiting.free, hwaiting.fresh, fun entry hentry => ?_⟩
      have hjournal : Function.update cache.journals dir (some record) dir = some record := Function.update_self _ _ _
      simp only [hjournal, Option.getD_some] at hentry
      exact hrecord entry hentry
    · have hjournal := Function.update_of_ne hsame (some record) cache.journals
      rcases h.each hother with hwait | hplaced
      · exact Or.inl (hwait.congr (fun _ _ _ hscope hmember => ⟨hscope, hmember⟩) rfl rfl id hjournal)
      · exact Or.inr (hplaced.congr (fun _ => id) id rfl hjournal)

/-- Working on a library that is in its directory, with every checkout within reach at the end. -/
theorem Recoverable.putBack (hintact : before.Intact) (h : Recoverable before present cache)
    (hholds : before.Holds origin dirname lib) (hplaced : cache.Placed origin dirname lib.want) {shelf : Shelf}
    (hkept : Kept lib.want origin (.flat dirname) shelf.lib (shelf.journal.getD [])) :
    Recoverable before present (cache.putBack dirname shelf) := by
  have hflat {dir : String} : (cache.putBack dirname shelf).libs (.flat dir) ≠ none ↔
      cache.libs (.flat dir) ≠ none := by
    by_cases hsame : dir = dirname
    · subst hsame
      obtain ⟨found, hfound, _⟩ := hplaced.kept
      rw [CacheDir.libs_putBack_self, hfound]
      exact iff_of_true (Option.some_ne_none _) (Option.some_ne_none _)
    · rw [CacheDir.libs_putBack fun heq => hsame (Site.flat.inj heq)]
  refine ⟨h.entries, h.members, h.listed, h.fewer, fun hlib => ?_, fun hbefore => hflat.mpr (h.flat hbefore),
    fun hthere => h.known (hflat.mp hthere), fun dir hdir => hflat.mpr (h.present dir hdir), ?_⟩
  · rw [CacheDir.libs_putBack (by simp)] at hlib
    exact h.nested hlib
  · intro other dir lib' hother
    by_cases hsame : dir = dirname
    · subst hsame
      obtain rfl := hintact.origin_unique hholds hother
      obtain rfl := Option.some.inj (hholds.there.symm.trans hother.there)
      refine Or.inr ⟨fun hne => (CacheDir.libs_putBack hne).trans (hplaced.gone hne), hplaced.listed, shelf.lib,
        CacheDir.libs_putBack_self, ?_⟩
      rw [CacheDir.journals_putBack_self]
      exact hkept
    · have hthere : (cache.putBack dirname shelf).libs (.flat dir) = cache.libs (.flat dir) :=
        CacheDir.libs_putBack fun heq => hsame (Site.flat.inj heq)
      have horigin : (cache.putBack dirname shelf).libs other = cache.libs other :=
        CacheDir.libs_putBack (hother.flat_ne hsame)
      rcases h.each hother with hwait | hplaced'
      · exact Or.inl (hwait.congr (fun _ _ _ hscope hmember => ⟨hscope, hmember⟩) horigin hthere id
          (CacheDir.journals_putBack hsame))
      · exact Or.inr (hplaced'.congr (fun _ hnone => horigin.trans hnone) id hthere (CacheDir.journals_putBack hsame))

/-- A library that is moved is in its directory with every checkout within reach. -/
theorem CacheDir.Waiting.placed {rename : Rename} (hsound : lib.Sound (.nested rename.scope rename.member))
    (h : cache.Waiting (.nested rename.scope rename.member) rename.target lib) :
    (cache.moved rename lib).Placed (.nested rename.scope rename.member) rename.target lib.want where
  gone := fun _ => libs_moved_source
  listed := List.mem_append_right _ (List.mem_singleton_self _)
  kept := ⟨lib, libs_moved_target, hsound.kept h.recorded⟩

/-- Moving a library. -/
theorem Recoverable.moved (hintact : before.Intact) (h : Recoverable before present cache) {rename : Rename}
    (hholds : before.Holds (.nested rename.scope rename.member) rename.target lib)
    (hwaiting : cache.Waiting (.nested rename.scope rename.member) rename.target lib) :
    Recoverable before present (cache.moved rename lib) := by
  have hflat {dir : String} (hne : dir ≠ rename.target) :
      (cache.moved rename lib).libs (.flat dir) = cache.libs (.flat dir) :=
    CacheDir.libs_moved (fun heq => hne (Site.flat.inj heq)) (by simp)
  have hgrows {dir : String} (hthere : cache.libs (.flat dir) ≠ none) :
      (cache.moved rename lib).libs (.flat dir) ≠ none := by
    by_cases hsame : dir = rename.target
    · rw [hsame, CacheDir.libs_moved_target]
      exact Option.some_ne_none lib
    · rwa [hflat hsame]
  refine
    { entries := h.entries.append (List.nodup_singleton _) (List.disjoint_singleton.mpr hwaiting.fresh)
      members := fun dir => ?_
      listed := fun dir hdir => ?_
      fewer := fun dir member hmember => h.fewer dir member (CacheDir.mem_of_mem_members_moved hmember)
      nested := fun {scope member lib'} hlib => ?_
      flat := fun hbefore => hgrows (h.flat hbefore)
      known := fun {dir} hthere => ?_
      present := fun dir hdir => hgrows (h.present dir hdir)
      each := fun {origin dir lib'} hholds' => ?_ }
  · rw [CacheDir.members_moved]
    split
    · exact (h.members _).filter _
    · exact h.members dir
  · rcases List.mem_append.mp hdir with hbefore | hnew
    · exact h.listed dir hbefore
    · rw [List.mem_singleton.mp hnew]
      exact Or.inr ⟨_, lib, hholds⟩
  · by_cases hsource : Site.nested scope member = .nested rename.scope rename.member
    · rw [hsource, CacheDir.libs_moved_source] at hlib
      cases hlib
    · rw [CacheDir.libs_moved (by simp) hsource] at hlib
      exact h.nested hlib
  · by_cases hsame : dir = rename.target
    · subst hsame
      exact Or.inr ⟨_, lib, hholds⟩
    · rw [hflat hsame] at hthere
      exact h.known hthere
  · by_cases hsame : dir = rename.target
    · subst hsame
      obtain rfl := hintact.origin_unique hholds hholds'
      obtain rfl := Option.some.inj (hholds.there.symm.trans hholds'.there)
      exact Or.inr (hwaiting.placed (hintact.sound hholds))
    · have horigin : origin ≠ .nested rename.scope rename.member := by
        rintro rfl
        exact hsame (hholds'.dirname_unique hholds)
      have hstays : (cache.moved rename lib).libs origin = cache.libs origin :=
        CacheDir.libs_moved (hholds'.flat_ne hsame) horigin
      rcases h.each hholds' with hwait | hplaced
      · refine Or.inl (hwait.congr (fun scope member heq hscope hmember => ?_) hstays (hflat hsame) (fun hmem => ?_) rfl)
        · exact ⟨List.mem_append_left _ hscope, CacheDir.mem_members_moved hmember (heq ▸ horigin)⟩
        · exact (List.mem_append.mp hmem).resolve_right fun hnew => hsame (List.mem_singleton.mp hnew)
      · exact Or.inr (hplaced.congr (fun _ hnone => hstays.trans hnone) (List.mem_append_left _) (hflat hsame) rfl)

/-- Deleting a scope that holds nothing more. -/
theorem Recoverable.removeScope (hintact : before.Intact) (h : Recoverable before present cache)
    (hsource : (scope, member) ∈ before.survey.sources) (hempty : cache.members scope = []) :
    Recoverable before present { cache with entries := cache.entries.filter fun dir => dir != scope } where
  entries := h.entries.filter _
  members := h.members
  listed := fun dir hdir => h.listed dir (List.mem_filter.mp hdir).1
  fewer := h.fewer
  nested := h.nested
  flat := h.flat
  known := h.known
  present := h.present
  each := by
    intro origin dir lib hholds
    rcases h.each hholds with hwait | hplaced
    · refine Or.inl (hwait.congr (fun scope' member' heq hscope hmember => ⟨?_, hmember⟩) rfl rfl
        (fun hmem => (List.mem_filter.mp hmem).1) rfl)
      refine List.mem_filter.mpr ⟨hscope, bne_iff_ne.mpr ?_⟩
      rintro rfl
      rw [hempty] at hmember
      exact absurd hmember List.not_mem_nil
    · refine Or.inr (hplaced.congr (fun _ => id) (fun hmem => ?_) rfl rfl)
      exact List.mem_filter.mpr ⟨hmem, bne_iff_ne.mpr (hintact.scope_ne hsource hholds).symm⟩

end Changes

section Running

variable {A : Type} {fate : ℕ → Event} {before cache : CacheDir} {origin : Site} {dirname : String} {lib : Lib}
  {present todo : List String} {rename : Rename} {moves : List Rename}

/-- The cache can still be brought up to date, and some command has not done what it is asked. -/
def CutShort (before : CacheDir) (present : List String) (fate : ℕ → Event) (cache : CacheDir) : Prop :=
  Recoverable before present cache ∧ ¬ Smooth fate

/-- Every checkout of a library is in the library's directory, at its commit. -/
def CacheDir.Home (cache : CacheDir) (dirname : String) (want : Wanted) : Prop :=
  ∃ lib, cache.libs (.flat dirname) = some lib ∧
    ∀ {checkout commit : String}, want checkout = some commit → lib.At (.flat dirname) checkout commit

/-- Nothing changed but at some places. -/
def CacheDir.Beside (places : List Site) (cache cache' : CacheDir) : Prop :=
  ∀ site, site ∉ places → cache'.libs site = cache.libs site

/-- Working on a library that is in its directory, under every care for it. -/
theorem meets_onLibrary (hintact : before.Intact) (hholds : before.Holds origin dirname lib)
    (h : Recoverable before present cache) (hplaced : cache.Placed origin dirname lib.want) {work : Mending A}
    (settled : A → Bool)
    (hwork : ∀ care : Care, Meets fate (care.Broken fate) care.Tended work fun answer shelf =>
      care.Tended shelf ∧ (settled answer = true → care.Whole shelf.lib)) :
    Meets fate (CutShort before present fate) (fun state => state = cache) (onLibrary dirname work)
      fun answer cache' => Recoverable before present cache' ∧ cache'.Placed origin dirname lib.want ∧
        cache.Beside [.flat dirname] cache' ∧ (settled answer = true → cache'.Home dirname lib.want) := by
  obtain ⟨found, hfound, hkept⟩ := hplaced.kept
  refine meets_ask_bind (fun state hstate => ⟨found, by rw [hstate, hfound]⟩) fun seen => ?_
  let care : Care := ⟨lib.want, origin, .flat dirname, cache.libs, hplaced.gone⟩
  have hput {shelf : Shelf} (htended : care.Tended shelf) : Recoverable before present (cache.putBack dirname shelf) :=
    h.putBack hintact hholds hplaced htended.kept
  refine (hwork care).focus (fun state hstate => ?_) (fun answer state shelf hstate hends => ?_)
    fun state shelf hstate hends => ?_
  · obtain ⟨rfl, hseen⟩ := hstate
    rw [hfound] at hseen
    obtain rfl := Except.ok.inj hseen
    exact ⟨rfl, rfl, hkept⟩
  · obtain ⟨rfl, _⟩ := hstate
    have hthere : (state.putBack dirname shelf).libs (.flat dirname) = some shelf.lib := CacheDir.libs_putBack_self
    refine ⟨hput hends.1, ?_, fun site hsite => CacheDir.libs_putBack fun heq => hsite (List.mem_singleton.mpr heq),
      fun hsettled => ⟨shelf.lib, hthere, hends.2 hsettled⟩⟩
    exact .of_there ((hput hends.1).each hholds) (hthere ▸ Option.some_ne_none shelf.lib)
  · obtain ⟨rfl, _⟩ := hstate
    exact ⟨hput hends.1, hends.2⟩

/-- Attending to a library has every checkout in its directory, at its commit. -/
theorem meets_attend (hintact : before.Intact) (hholds : before.Holds origin dirname lib)
    (h : Recoverable before present cache) (hplaced : cache.Placed origin dirname lib.want) :
    Meets fate (CutShort before present fate) (fun state => state = cache) (attend dirname)
      fun _ cache' => Recoverable before present cache' ∧ cache.Beside [.flat dirname] cache' ∧
        cache'.Home dirname lib.want := by
  have hlook : ∀ care : Care, Meets fate (care.Broken fate) care.Tended
      (Routine.read Shelf.needsAttention : Mending Bool)
      fun needed shelf => care.Tended shelf ∧ ((!needed) = true → care.Whole shelf.lib) :=
    fun care _ shelf htended => ⟨htended, fun hfine => (htended.healed (Bool.not_eq_true' _ |>.mp hfine)).2⟩
  refine (meets_onLibrary hintact hholds h hplaced _ hlook).bind fun needed => ?_
  cases needed with
  | false => exact meets_pure fun state hstate => ⟨hstate.1, hstate.2.2.1, hstate.2.2.2 rfl⟩
  | true =>
    refine meets_of_state fun state hstate => ?_
    obtain ⟨hrecoverable, hplaced', hbeside, _⟩ := hstate
    refine meets_ask_bind (fun _ _ => hintact.locks hholds) fun lock => ?_
    refine Meets.mono ?_ (fun _ hstate => hstate.1) fun _ _ => id
    refine (meets_onLibrary hintact hholds hrecoverable hplaced' (fun _ => true)
      fun care => meets_healAndBackfill.mono (fun _ => id) fun _ _ hhealed => ⟨hhealed.1, fun _ => hhealed.2⟩).mono
      (fun _ => id) fun _ cache' hends => ?_
    refine ⟨hends.1, fun site hsite => ?_, hends.2.2.2 rfl⟩
    rw [hends.2.2.1 site hsite, hbeside site hsite]

/-- Moves of libraries that the cache holds, each to the directory it ends up in. -/
structure Moves (before : CacheDir) (moves : List Rename) : Prop where
  holds : ∀ rename ∈ moves, ∃ lib, before.Holds (.nested rename.scope rename.member) rename.target lib
  nodup : (moves.map Rename.target).Nodup

/-- A run is under way: some moves are left, and then some directories. -/
structure Underway (before : CacheDir) (present : List String) (moves : List Rename) (todo : List String)
    (cache : CacheDir) : Prop where
  recoverable : Recoverable before present cache
  waiting : ∀ rename ∈ moves, cache.libs (.nested rename.scope rename.member) ≠ none
  done : ∀ {origin dirname lib}, before.Holds origin dirname lib →
    dirname ∈ moves.map Rename.target ∨ dirname ∈ todo ∨ cache.Home dirname lib.want

/-- What is home stays home where nothing changes in its directory. -/
theorem CacheDir.Home.congr {want : Wanted} {cache' : CacheDir} (h : cache.Home dirname want)
    (hthere : cache'.libs (.flat dirname) = cache.libs (.flat dirname)) : cache'.Home dirname want := by
  obtain ⟨lib, hlib, hwhole⟩ := h
  exact ⟨lib, hthere.trans hlib, hwhole⟩

/-- A move that is left is of a library that waits. -/
theorem Underway.waits (h : Underway before present moves todo cache) (hmem : rename ∈ moves)
    (hholds : before.Holds (.nested rename.scope rename.member) rename.target lib) :
    cache.Waiting (.nested rename.scope rename.member) rename.target lib :=
  .of_there (h.recoverable.each hholds) (by simp) (h.waiting rename hmem)

/-- A scope that holds nothing more may be deleted, or left. -/
theorem meets_removeScope (hintact : before.Intact)
    (hholds : before.Holds (.nested rename.scope rename.member) rename.target lib) :
    Meets fate (CutShort before present fate) (Underway before present moves todo) (removeScope rename.scope)
      fun _ => Underway before present moves todo := by
  have hsource : (rename.scope, rename.member) ∈ before.survey.sources := by
    cases hholds with
    | nested hsource _ _ => exact hsource
  refine meets_act fun step state hstate => ?_
  cases hevent : fate step with
  | ok =>
    change Underway before present moves todo (if (state.members rename.scope).isEmpty then _ else state)
    split
    · rename_i hempty
      exact ⟨hstate.recoverable.removeScope hintact hsource (List.isEmpty_iff.mp hempty), hstate.waiting, hstate.done⟩
    · exact hstate
  | err => exact hstate
  | stop => exact ⟨hstate.recoverable, not_smooth hevent (by simp)⟩

/-- A library that waits is moved. -/
theorem meets_moveLibrary (h : Recoverable before present cache)
    (hwaiting : cache.Waiting (.nested rename.scope rename.member) rename.target lib) :
    Meets fate (CutShort before present fate) (fun state => state = cache) (moveLibrary rename)
      fun _ state => state = cache.moved rename lib := by
  unfold moveLibrary
  refine meets_act fun step state hstate => ?_
  obtain rfl := hstate
  cases hevent : fate step with
  | ok =>
    rw [hwaiting.there]
    rfl
  | err => exact ⟨h, not_smooth hevent (by simp)⟩
  | stop => exact ⟨h, not_smooth hevent (by simp)⟩

/-- One library is moved and healed. -/
theorem meets_applyRename (hintact : before.Intact) (hmoves : Moves before (rename :: moves)) :
    Meets fate (CutShort before present fate) (Underway before present (rename :: moves) todo) (applyRename rename)
      fun _ => Underway before present moves todo := by
  obtain ⟨lib, hholds⟩ := hmoves.holds rename List.mem_cons_self
  refine meets_of_state fun cache hunderway => ?_
  have hwaiting := hunderway.waits List.mem_cons_self hholds
  refine meets_read_bind fun move => ?_
  have hmove : ∀ state, state = cache ∧ move = ((state.libs (.nested rename.scope rename.member)).isSome ||
      !state.entries.contains rename.target) → move = true := by
    rintro _ ⟨rfl, rfl⟩
    rw [hwaiting.there]
    rfl
  refine meets_of_fact hmove fun htrue => ?_
  rw [if_pos htrue]
  refine Meets.mono ?_ (fun _ hstate => hstate.1) fun _ _ => id
  have hmoved := hunderway.recoverable.moved hintact hholds hwaiting
  have hplaced := hwaiting.placed (hintact.sound hholds)
  refine (meets_moveLibrary hunderway.recoverable hwaiting).bind fun _ => ?_
  refine (meets_pure fun _ hstate => hstate : Meets fate (CutShort before present fate)
    (fun state => state = cache.moved rename lib) _ fun _ state => state = cache.moved rename lib).bind fun lines => ?_
  refine (meets_onLibrary hintact hholds hmoved hplaced (fun _ => true) fun care =>
    meets_healAndBackfill.mono (fun _ => id) fun _ _ hhealed => ⟨hhealed.1, fun _ => hhealed.2⟩).bind fun healed => ?_
  have hends (state : CacheDir)
      (hstate : Recoverable before present state ∧
        state.Placed (.nested rename.scope rename.member) rename.target lib.want ∧
          (cache.moved rename lib).Beside [.flat rename.target] state ∧
            (true = true → state.Home rename.target lib.want)) : Underway before present moves todo state := by
    obtain ⟨hrecoverable, _, hbeside, hhome⟩ := hstate
    have hstays {site : Site} (htarget : site ≠ .flat rename.target)
        (hsource : site ≠ .nested rename.scope rename.member) : state.libs site = cache.libs site := by
      rw [hbeside site fun hmem => htarget (List.mem_singleton.mp hmem), CacheDir.libs_moved htarget hsource]
    refine ⟨hrecoverable, fun other hother => ?_, fun {origin dirname lib'} hholds' => ?_⟩
    · obtain ⟨lib', hholds'⟩ := hmoves.holds other (List.mem_cons_of_mem rename hother)
      rw [hstays (by simp)]
      · exact hunderway.waiting other (List.mem_cons_of_mem rename hother)
      · intro heq
        rw [heq] at hholds'
        have htarget := hholds'.dirname_unique hholds
        exact (List.nodup_cons.mp hmoves.nodup).1 (htarget ▸ List.mem_map_of_mem hother)
    · by_cases hsame : dirname = rename.target
      · subst hsame
        obtain rfl := hintact.origin_unique hholds hholds'
        obtain rfl := Option.some.inj (hholds.there.symm.trans hholds'.there)
        exact Or.inr (Or.inr (hhome rfl))
      · refine (hunderway.done hholds').imp (fun hmem => ?_) (Or.imp_right fun hhome' => hhome'.congr ?_)
        · exact (List.mem_cons.mp hmem).resolve_left hsame
        · exact hstays (fun heq => hsame (Site.flat.inj heq)) (by simp)
  refine ((meets_removeScope hintact hholds).mono hends fun _ _ => id).bind fun _ => ?_
  exact meets_pure fun _ => id

/-- All the moves that are left are made. -/
theorem meets_migrate (hintact : before.Intact) (hmoves : Moves before moves) (lines : List String) :
    Meets fate (CutShort before present fate) (Underway before present moves todo) (moves.foldlM migrate lines)
      fun _ => Underway before present [] todo := by
  induction moves generalizing lines with
  | nil => exact meets_pure fun _ => id
  | cons rename rest ih =>
    obtain ⟨lib, hholds⟩ := hmoves.holds rename List.mem_cons_self
    have hrest : Moves before rest :=
      ⟨fun other hother => hmoves.holds other (List.mem_cons_of_mem rename hother), (List.nodup_cons.mp hmoves.nodup).2⟩
    have hstep : Meets fate (CutShort before present fate) (Underway before present (rename :: rest) todo)
        (migrate lines rename) fun _ => Underway before present rest todo := by
      have hlocked : Meets fate (CutShort before present fate) (Underway before present (rename :: rest) todo)
          (withLibDir rename.target (applyRename rename)) fun _ => Underway before present rest todo := by
        refine meets_ask_bind (fun _ _ => hintact.locks hholds) fun lock => ?_
        exact (meets_applyRename hintact hmoves).mono (fun _ hstate => hstate.1) fun _ _ => id
      exact hlocked.bind fun moved => meets_pure fun _ => id
    exact hstep.bind fun lines => ih hrest lines

/-- The commits of a sound library can all be captured. -/
theorem Lib.Sound.captured (h : lib.Sound origin) : ∃ commits, captureCommits lib = .ok commits ∧
    ∀ entry ∈ commits.toList, lib.want entry.1 = some entry.2 := by
  let care : Care := ⟨lib.want, origin, origin, fun _ => none, fun _ => rfl⟩
  have htended : care.Tended ⟨origin, lib, none, fun _ => none⟩ :=
    ⟨rfl, rfl, h.kept fun _ hmem => absurd hmem List.not_mem_nil⟩
  obtain ⟨commits, hcommits, hcaptured, _⟩ := captureCommits_eq_ok htended
  exact ⟨commits, hcommits, fun entry hentry => hcaptured (ExtTreeMap.mem_toList_iff_getElem?_eq_some.mp hentry)⟩

/-- The captured commits are those of the libraries to be moved. -/
def Records (before : CacheDir) (moves : List Rename) (captured : List (Rename × ExtTreeMap String String)) : Prop :=
  ∀ pair ∈ captured, pair.1 ∈ moves ∧
    ∀ lib, before.Holds (.nested pair.1.scope pair.1.member) pair.1.target lib →
      ∀ entry ∈ pair.2.toList, lib.want entry.1 = some entry.2

/-- The commits of all libraries to be moved are captured. -/
theorem meets_capture (hintact : before.Intact) (hmoves : Moves before moves) :
    Meets fate (CutShort before present fate) (Underway before present moves todo) (moves.foldlM capture [])
      fun captured state => Records before moves captured ∧ Underway before present moves todo state := by
  let kept (rest : List Rename) (captured : List (Rename × ExtTreeMap String String)) (state : CacheDir) : Prop :=
    (∀ rename ∈ rest, rename ∈ moves) ∧ Records before moves captured ∧ Underway before present moves todo state
  have hloop : Meets fate (CutShort before present fate) (kept moves []) (moves.foldlM capture []) (kept []) := by
    refine meets_foldlM kept (fun rename rest captured => ?_) moves []
    have hcapture (state : CacheDir) (hstate : kept (rename :: rest) captured state) :
        ∃ commits, captureSource rename state = .ok commits ∧ ∀ lib,
          before.Holds (.nested rename.scope rename.member) rename.target lib →
            ∀ entry ∈ commits.toList, lib.want entry.1 = some entry.2 := by
      have hmem := hstate.1 rename List.mem_cons_self
      obtain ⟨lib, hholds⟩ := hmoves.holds rename hmem
      obtain ⟨commits, hcommits, hwant⟩ := (hintact.sound hholds).captured
      refine ⟨commits, ?_, fun lib' hholds' => ?_⟩
      · rw [captureSource, (hstate.2.2.waits hmem hholds).there]
        exact hcommits
      · obtain rfl := Option.some.inj (hholds.there.symm.trans hholds'.there)
        exact hwant
    refine meets_ask_bind (fun state hstate => (hcapture state hstate).imp fun _ => And.left) fun commits => ?_
    refine meets_pure fun state hstate => ?_
    obtain ⟨hkept, hcommits⟩ := hstate
    obtain ⟨_, hfound, hwant⟩ := hcapture state hkept
    obtain rfl := Except.ok.inj (hcommits.symm.trans hfound)
    refine ⟨fun other hother => hkept.1 other (List.mem_cons_of_mem rename hother), fun pair hpair => ?_, hkept.2.2⟩
    rcases List.mem_append.mp hpair with hbefore | hnew
    · exact hkept.2.1 pair hbefore
    · rw [List.mem_singleton.mp hnew]
      exact ⟨hkept.1 rename List.mem_cons_self, hwant⟩
  exact hloop.mono (fun _ hstate => ⟨fun _ => id, fun _ hmem => absurd hmem List.not_mem_nil, hstate⟩)
    fun _ _ hends => hends.2

/-- What was captured is recorded. -/
theorem meets_record (hintact : before.Intact) (hmoves : Moves before moves)
    {captured : List (Rename × ExtTreeMap String String)} (hrecords : Records before moves captured) :
    Meets fate (CutShort before present fate) (Underway before present moves todo) (captured.foldlM recordSource ())
      fun _ => Underway before present moves todo := by
  let kept (rest : List (Rename × ExtTreeMap String String)) (_ : Unit) (state : CacheDir) : Prop :=
    Records before moves rest ∧ Underway before present moves todo state
  have hloop : Meets fate (CutShort before present fate) (kept captured ()) (captured.foldlM recordSource ())
      (kept []) := by
    refine meets_foldlM kept (fun pair rest start => ?_) captured ()
    have hrest (state : CacheDir) (hstate : kept (pair :: rest) start state) : kept rest start state :=
      ⟨fun other hother => hstate.1 other (List.mem_cons_of_mem pair hother), hstate.2⟩
    by_cases hempty : pair.2.isEmpty = true
    · rw [recordSource, if_pos hempty]
      exact meets_pure hrest
    · rw [recordSource, if_neg hempty]
      refine meets_act fun step state hstate => ?_
      have hunderway := hstate.2
      cases hevent : fate step with
      | ok =>
        obtain ⟨hmem, hwant⟩ := hstate.1 pair List.mem_cons_self
        obtain ⟨lib, hholds⟩ := hmoves.holds pair.1 hmem
        have hrecorded := hunderway.recoverable.record hintact hholds (hunderway.waits hmem hholds) (hwant lib hholds)
        exact ⟨(hrest state hstate).1, hrecorded, hunderway.waiting, hunderway.done⟩
      | err => exact ⟨hunderway.recoverable, not_smooth hevent (by simp)⟩
      | stop => exact ⟨hunderway.recoverable, not_smooth hevent (by simp)⟩
  exact hloop.mono (fun _ hstate => ⟨hrecords, hstate⟩) fun _ _ hends => hends.2

/-- What is told so far: every directory but those left is attended to, or a problem is told and some command has not
done what it is asked. -/
structure Attending (before : CacheDir) (present : List String) (fate : ℕ → Event) (todo : List String)
    (told : List String × List String) (cache : CacheDir) : Prop where
  recoverable : Recoverable before present cache
  left : ∀ dirname ∈ todo, dirname ∈ present
  told : told.2 = [] ∧ Underway before present [] todo cache ∨ told.2 ≠ [] ∧ ¬ Smooth fate

/-- One directory is attended to. -/
theorem meets_attendNext (hintact : before.Intact)
    (hpresent : ∀ dirname ∈ present, ∃ origin lib, before.Holds origin dirname lib) (told : List String × List String) :
    Meets fate (CutShort before present fate) (Attending before present fate (dirname :: todo) told)
      (attendNext told dirname) (Attending before present fate todo) := by
  refine meets_of_state fun cache hattending => ?_
  have hmem := hattending.left dirname List.mem_cons_self
  obtain ⟨origin, lib, hholds⟩ := hpresent dirname hmem
  have hplaced : cache.Placed origin dirname lib.want :=
    .of_there (hattending.recoverable.each hholds) (hattending.recoverable.present dirname hmem)
  have hleft : ∀ other ∈ todo, other ∈ present :=
    fun other hother => hattending.left other (List.mem_cons_of_mem dirname hother)
  refine (meets_attend hintact hholds hattending.recoverable hplaced).attempt.bind fun result => ?_
  cases result with
  | ok lines =>
    refine meets_pure fun state hstate => ?_
    rcases hstate with ⟨answer, _, hrecoverable, hbeside, hhome⟩ | ⟨problem, heq, _⟩
    · refine ⟨hrecoverable, hleft, hattending.told.imp_left fun hdone => ⟨hdone.1, hrecoverable, ?_, ?_⟩⟩
      · exact fun _ hmem => absurd hmem List.not_mem_nil
      · intro other dir lib' hother
        by_cases hsame : dir = dirname
        · subst hsame
          obtain rfl := hintact.origin_unique hholds hother
          obtain rfl := Option.some.inj (hholds.there.symm.trans hother.there)
          exact Or.inr (Or.inr hhome)
        · rcases hdone.2.done hother with hmoves | htodo | hhome'
          · exact absurd hmoves List.not_mem_nil
          · exact Or.inr (Or.inl ((List.mem_cons.mp htodo).resolve_left hsame))
          · refine Or.inr (Or.inr (hhome'.congr (hbeside _ fun hmem => hsame ?_)))
            exact Site.flat.inj (List.mem_singleton.mp hmem)
    · cases heq
  | error problem =>
    refine meets_pure fun state hstate => ?_
    rcases hstate with ⟨answer, heq, _⟩ | ⟨_, _, hbroken⟩
    · cases heq
    · exact ⟨hbroken.1, hleft, Or.inr ⟨by simp, hbroken.2⟩⟩

/-- A cache that can be brought up to date can be, whichever libraries are there. -/
theorem Recoverable.forget (h : Recoverable before present cache) : Recoverable before [] cache :=
  { h with present := fun _ hdir => absurd hdir List.not_mem_nil }

/-- The libraries that a survey finds in their directories are there. -/
theorem Recoverable.present_libraries (h : Recoverable before [] cache) :
    Recoverable before cache.survey.libraries cache :=
  { h with present := fun _ hdir => Option.isSome_iff_ne_none.mp (Docs.mem_libraries.mp hdir).2 }

/-- The moves that are planned are of libraries that are held. -/
theorem Recoverable.moves_of_planned (hintact : before.Intact) (h : Recoverable before present cache)
    (hplanned : Planned cache.survey.sources moves) : Moves before moves := by
  obtain ⟨hsources, htargets⟩ := hplanned
  have hholds : ∀ rename ∈ moves, ∃ lib, before.Holds (.nested rename.scope rename.member) rename.target lib := by
    intro rename hmem
    have hsource : (rename.scope, rename.member) ∈ cache.survey.sources :=
      hsources ▸ List.mem_map_of_mem (f := fun rename : Rename => (rename.scope, rename.member)) hmem
    obtain ⟨dirname, lib, hholds⟩ := hintact.holds_of_source (h.mem_sources hsource)
    cases hholds with
    | nested hfound htarget hlib =>
      obtain rfl := Except.ok.inj (htarget.symm.trans (htargets rename hmem))
      exact ⟨lib, .nested hfound htarget hlib⟩
  refine ⟨hholds, ?_⟩
  have hnodup := nodup_sources h.entries h.members
  rw [← hsources] at hnodup
  refine (List.nodup_map_iff_inj_on (hnodup.of_map _)).mpr fun rename hmem other hother htarget => ?_
  obtain ⟨lib, hlib⟩ := hholds rename hmem
  obtain ⟨lib', hlib'⟩ := hholds other hother
  rw [← htarget] at hlib'
  obtain ⟨hscope, hmember⟩ := Site.nested.inj (hintact.origin_unique hlib hlib')
  cases rename
  cases other
  exact Rename.mk.injEq .. ▸ ⟨hscope, hmember, htarget⟩

/-- A run finds every library among the moves that it plans or among the directories it is to attend to. -/
theorem Recoverable.underway (hintact : before.Intact) (h : Recoverable before [] cache)
    (hplanned : Planned cache.survey.sources moves) :
    Underway before cache.survey.libraries moves cache.survey.libraries cache := by
  refine ⟨h.present_libraries, fun rename hmem => ?_, fun {origin dirname lib} hholds => ?_⟩
  · have hsource : (rename.scope, rename.member) ∈ cache.survey.sources :=
      hplanned.1 ▸ List.mem_map_of_mem (f := fun rename : Rename => (rename.scope, rename.member)) hmem
    exact Option.isSome_iff_ne_none.mp (Docs.mem_sources.mp hsource).2.2.2
  · rcases h.each hholds with hwaiting | hplaced
    · obtain ⟨scope, member, rfl, _⟩ := hwaiting.found
      have hsource := hintact.mem_sources h hholds hwaiting
      rw [← hplanned.1] at hsource
      obtain ⟨rename, hmem, heq⟩ := List.mem_map.mp hsource
      obtain ⟨rfl, rfl⟩ := Prod.mk.inj heq
      obtain ⟨_, hlib⟩ := (h.moves_of_planned hintact hplanned).holds rename hmem
      rw [hholds.dirname_unique hlib]
      exact Or.inl (List.mem_map_of_mem hmem)
    · exact Or.inr (Or.inl (hplaced.mem_libraries hholds))

/-- A run that is done has every checkout of every library in the library's directory, at its commit. -/
theorem meets_upgrade (hintact : before.Intact) :
    Meets fate (CutShort before [] fate) (Recoverable before []) upgrade fun _ cache =>
      Recoverable before [] cache ∧
        ∀ {origin dirname lib}, before.Holds origin dirname lib → cache.Home dirname lib.want := by
  refine meets_of_state fun cache h => ?_
  obtain ⟨renames, hrenames, hplanned⟩ := planRenames_eq_ok (h.plannable hintact)
  have hmoves := h.moves_of_planned hintact hplanned
  have hpresent : ∀ dirname ∈ cache.survey.libraries, ∃ origin lib, before.Holds origin dirname lib :=
    fun _ hdir => h.holds_of_library hintact hdir
  refine Meets.weaken ?_ fun state (hbroken : CutShort before cache.survey.libraries fate state) =>
    ⟨hbroken.1.forget, hbroken.2⟩
  refine meets_read_bind fun survey => ?_
  refine meets_of_fact (fun _ hstate => hstate.2.trans (congrArg CacheDir.survey hstate.1)) ?_
  rintro rfl
  refine meets_ask_bind (fun _ hstate => ⟨renames, by rw [hstate.1, hrenames]⟩) fun moves => ?_
  have hplan : ∀ state, (state = cache ∧ cache.survey = state.survey) ∧ planRenames state cache.survey = .ok moves →
      moves = renames := by
    rintro _ ⟨⟨rfl, _⟩, hmoves⟩
    exact Except.ok.inj (hmoves.symm.trans hrenames)
  refine meets_of_fact hplan ?_
  rintro rfl
  have hbegin : ∀ state, (state = cache ∧ cache.survey = state.survey) ∧ planRenames state cache.survey = .ok moves →
      Underway before cache.survey.libraries moves cache.survey.libraries state := by
    intro state hstate
    rw [hstate.1.1]
    exact h.underway hintact hplanned
  refine Meets.mono ?_ hbegin fun _ _ => id
  refine (meets_capture hintact hmoves).bind fun captured => ?_
  refine meets_of_fact (fun _ hstate => hstate.1) fun hrecords => ?_
  refine Meets.mono ?_ (fun _ hstate => hstate.2) fun _ _ => id
  refine (meets_record hintact hmoves hrecords).bind fun _ => ?_
  refine (meets_migrate hintact hmoves []).bind fun lines => ?_
  have hstart : ∀ state, Underway before cache.survey.libraries [] cache.survey.libraries state →
      Attending before cache.survey.libraries fate cache.survey.libraries (lines, []) state :=
    fun _ hstate => ⟨hstate.recoverable, fun _ => id, Or.inl ⟨rfl, hstate⟩⟩
  refine Meets.mono ?_ hstart fun _ _ => id
  refine (meets_foldlM (Attending before cache.survey.libraries fate)
    (fun _ _ told => meets_attendNext hintact hpresent told) cache.survey.libraries (lines, [])).bind fun told => ?_
  cases hproblems : told.2 with
  | nil =>
    refine meets_pure fun state hstate => ⟨hstate.recoverable.forget, fun hholds => ?_⟩
    rcases hstate.told with ⟨_, hunderway⟩ | ⟨hne, _⟩
    · rcases hunderway.done hholds with hmem | hmem | hhome
      · exact absurd hmem List.not_mem_nil
      · exact absurd hmem List.not_mem_nil
      · exact hhome
    · exact absurd hproblems hne
  | cons problem rest =>
    refine meets_fail fun state hstate => ⟨hstate.recoverable, ?_⟩
    rcases hstate.told with ⟨hnil, _⟩ | ⟨_, hfault⟩
    · rw [hproblems] at hnil
      cases hnil
    · exact hfault

/-- The cache that runs leave, one after another, however each of them ends. -/
def afterRuns (before : CacheDir) (runs : List (ℕ → Event)) : CacheDir :=
  runs.foldl (fun cache fate => (upgrade fate 0 cache).state) before

/-- However many runs are cut short, the cache can be brought up to date. -/
theorem recoverable_afterRuns (hintact : before.Intact) (runs : List (ℕ → Event)) :
    Recoverable before [] (afterRuns before runs) := by
  have hruns {cache : CacheDir} (h : Recoverable before [] cache) :
      Recoverable before [] (runs.foldl (fun cache fate => (upgrade fate 0 cache).state) cache) := by
    induction runs generalizing cache with
    | nil => exact h
    | cons fate rest ih => exact ih ((meets_upgrade hintact).state (fun _ _ => And.left) (fun _ => And.left) h 0)
  exact hruns hintact.recoverable

end Running

section Sample

/-- A library with one checkout. -/
def sampleLib : Lib where
  commits := ["4b825dc"]
  remote := some "https://example.org/core.git"
  admin := (∅ : ExtTreeMap String Entry).insert "v1" ⟨(.nested "@s" "core", "v1"), some "4b825dc"⟩
  trees := (∅ : ExtTreeMap String GitFile).insert "v1" (.names (.nested "@s" "core") "v1")
  bytes _ := 0
  sidecar := ⟨none, ∅⟩

/-- An older cache that holds one library. -/
def sampleCacheDir : CacheDir where
  entries := ["@s"]
  members dir := if dir = "@s" then ["core"] else []
  libs site := if site = .nested "@s" "core" then some sampleLib else none
  journals _ := none

/-- The only library that the sample holds. -/
theorem sampleCacheDir_holds {origin : Site} {dirname : String} {lib : Lib}
    (h : sampleCacheDir.Holds origin dirname lib) :
    origin = .nested "@s" "core" ∧ dirname = "@s~core" ∧ lib = sampleLib := by
  have hlib := h.there
  simp only [sampleCacheDir, Option.ite_none_right_eq_some, Option.some.injEq] at hlib
  obtain ⟨rfl, rfl⟩ := hlib
  have htarget : targetOf ("@s", "core") = .ok "@s~core" := by decide
  cases h with
  | nested _ htarget' _ => exact ⟨rfl, Except.ok.inj (htarget'.symm.trans htarget), rfl⟩

/-- Nothing has been done to the sample. -/
theorem sampleCacheDir_intact : sampleCacheDir.Intact := by
  have hsource (source : String × String) (h : source ∈ sampleCacheDir.survey.sources) : source = ("@s", "core") := by
    obtain ⟨⟨hscope, _⟩, _, hmember, _⟩ := mem_sources.mp h
    refine Prod.ext (List.mem_singleton.mp hscope) ?_
    rw [List.mem_singleton.mp hscope] at hmember
    exact List.mem_singleton.mp hmember
  have hmembers (dir : String) : (sampleCacheDir.members dir).Nodup := by
    change (if dir = "@s" then ["core"] else []).Nodup
    split
    · exact List.nodup_singleton _
    · exact List.nodup_nil
  refine ⟨by decide, hmembers, fun h => absurd rfl h, fun h => ?_, fun _ => rfl, fun h => ?_, ?_⟩
  · obtain ⟨rfl, _, rfl⟩ := sampleCacheDir_holds h
    have hsound {name : String} : sampleLib.admin[name]? =
        if "v1" = name then some ⟨(.nested "@s" "core", "v1"), some "4b825dc"⟩ else none := by
      rw [sampleLib, getElem?_insert_eq, ExtTreeMap.getElem?_empty]
    have htrees {name : String} : sampleLib.trees[name]? =
        if "v1" = name then some (.names (.nested "@s" "core") "v1") else none := by
      rw [sampleLib, getElem?_insert_eq, ExtTreeMap.getElem?_empty]
    refine ⟨fun {name entry} hentry => ?_, fun {checkout git} htree => ?_⟩
    · rw [hsound] at hentry
      split at hentry
      · rename_i hname
        subst hname
        refine ⟨"4b825dc", List.mem_singleton_self _, (Option.some.inj hentry).symm, ?_⟩
        rw [htrees, if_pos rfl]
      · cases hentry
    · rw [htrees] at htree
      split at htree
      · rename_i hname
        subst hname
        refine Or.inr ⟨(Option.some.inj htree).symm, ⟨(.nested "@s" "core", "v1"), some "4b825dc"⟩, ?_⟩
        rw [hsound, if_pos rfl]
      · cases htree
  · obtain ⟨_, rfl, _⟩ := sampleCacheDir_holds h
    exact ⟨"@s~core.lock", by decide⟩
  · have hplannable : Plannable sampleCacheDir sampleCacheDir.noMoves.claimed sampleCacheDir.survey.sources := by
      refine ⟨fun source h => ?_, (nodup_sources (by decide) hmembers).imp_of_mem fun hfirst hsecond hne => ?_⟩
      · rw [hsource source h]
        exact ⟨"@s~core", by decide, by decide, by decide⟩
      · exact absurd ((hsource _ hfirst).trans (hsource _ hsecond).symm) hne
    obtain ⟨renames, hrenames, _⟩ := planRenames_eq_ok hplannable
    exact ⟨renames, hrenames⟩

/-- The repair fails, and the run is cut short while the checkout is deleted. -/
def sampleFate (step : ℕ) : Event := if step = 4 then .err else if step = 8 then .stop else .ok

end Sample

end Devkit.Docs
