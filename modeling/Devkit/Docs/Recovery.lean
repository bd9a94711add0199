import Devkit.Docs.Upgrade
import Devkit.Library.OrderedMap

/-!
# What a cut-short upgrade leaves the next one finishes

A checkout's commit is never out of reach: the checkout and its entry still point at each other, or did so before the
move, or else the journal has it. No command of a run takes this away, wherever the run breaks off. A run that
finishes has every checkout where it was wanted, and a run whose commands all do what they are asked finishes.
-/

namespace Devkit.Docs

open Devkit.Library Devkit.Library.Routine Std

/-- The commit that each checkout of a library is wanted at. -/
abbrev Wanted := String → Option String

/-- A checkout is at a commit, and it and its entry point at each other at the place. -/
structure Lib.At (lib : Lib) (site : Site) (checkout commit : String) : Prop where
  tree : lib.trees[checkout]? = some (.names site checkout)
  entry : lib.admin[checkout]? = some ⟨(site, checkout), some commit⟩

/-- Every checkout of the library can be had back at the commit it is wanted at. -/
structure Kept (want : Wanted) (origin site : Site) (lib : Lib) (journal : Journal) : Prop where
  commits : ∀ {checkout commit}, want checkout = some commit → commit ∈ lib.commits
  admin : ∀ {name entry}, lib.admin[name]? = some entry →
    ∃ place commit, entry = ⟨(place, name), some commit⟩ ∧ want name = some commit ∧ (place = site ∨ place = origin)
  trees : ∀ {checkout git}, lib.trees[checkout]? = some git → git = .absent ∨
    ∃ place commit, git = .names place checkout ∧ want checkout = some commit ∧ (place = site ∨ place = origin) ∧
      ∀ entry, lib.admin[checkout]? = some entry → entry.back.1 = place
  recorded : ∀ {checkout commit}, (checkout, commit) ∈ journal → want checkout = some commit
  kept : ∀ {checkout commit}, want checkout = some commit →
    (checkout, commit) ∈ journal ∨ ∃ place, lib.At place checkout commit

section Library

variable {want : Wanted} {origin site : Site} {lib lib' : Lib} {journal journal' : Journal}

/-- The entry registered for a path is named after the checkout. -/
theorem Kept.registered (h : Kept want origin site lib journal) {checkout name : String}
    (hname : lib.registered (site, checkout) = some name) :
    name = checkout ∧ ∃ commit, lib.admin[checkout]? = some ⟨(site, checkout), some commit⟩ := by
  obtain ⟨⟨id, entry⟩, hfind, rfl⟩ := Option.map_eq_some_iff.mp hname
  have htest := List.find?_some hfind
  have hback : entry.back = (site, checkout) := of_decide_eq_true htest
  have hentry := ExtTreeMap.mem_toList_iff_getElem?_eq_some.mp (List.mem_of_find?_eq_some hfind)
  obtain ⟨place, commit, rfl, _, _⟩ := h.admin hentry
  obtain ⟨rfl, rfl⟩ := Prod.mk.inj hback
  exact ⟨rfl, commit, hentry⟩

/-- Where no entry has the name of a checkout, none is registered for it. -/
theorem Kept.registered_eq_none (h : Kept want origin site lib journal) {checkout : String}
    (hnone : lib.admin[checkout]? = none) : lib.registered (site, checkout) = none := by
  cases hname : lib.registered (site, checkout) with
  | none => rfl
  | some name =>
    obtain ⟨_, commit, hentry⟩ := h.registered hname
    rw [hnone] at hentry
    cases hentry

/-- A library that differs in one checkout, which the journal has, can still be had back. -/
theorem Kept.clear (h : Kept want origin site lib journal) {checkout commit : String}
    (hrecorded : (checkout, commit) ∈ journal) (hcommits : lib'.commits = lib.commits)
    (hadmin : lib'.admin = lib.admin) (htrees : ∀ other, other ≠ checkout → lib'.trees[other]? = lib.trees[other]?)
    (htree : ∀ git, lib'.trees[checkout]? = some git → git = .absent) : Kept want origin site lib' journal where
  commits hwant := hcommits ▸ h.commits hwant
  admin := hadmin ▸ h.admin
  trees := by
    intro name git hname
    by_cases hsame : name = checkout
    · subst hsame
      exact Or.inl (htree git hname)
    · rw [htrees name hsame] at hname
      rw [hadmin]
      exact h.trees hname
  recorded := h.recorded
  kept := by
    intro name wanted hwant
    by_cases hsame : name = checkout
    · subst hsame
      have heq := (h.recorded hrecorded).symm.trans hwant
      exact Or.inl (Option.some.inj heq ▸ hrecorded)
    · rcases h.kept hwant with hjournal | ⟨place, htree', hentry'⟩
      · exact Or.inl hjournal
      · exact Or.inr ⟨place, (htrees name hsame).trans htree', hadmin ▸ hentry'⟩

/-- A library without the entry of a checkout that the journal has can still be had back. -/
theorem Kept.unregister (h : Kept want origin site lib journal) {checkout commit : String}
    (hrecorded : (checkout, commit) ∈ journal) :
    Kept want origin site { lib with admin := lib.admin.erase checkout } journal where
  commits := h.commits
  admin := by
    intro name entry hname
    rw [getElem?_erase_eq] at hname
    split at hname
    · cases hname
    · exact h.admin hname
  trees := by
    intro name git hname
    rcases h.trees hname with habsent | ⟨place, wanted, hgit, hwant, hplace, hback⟩
    · exact Or.inl habsent
    · refine Or.inr ⟨place, wanted, hgit, hwant, hplace, fun entry hentry => hback entry ?_⟩
      rw [getElem?_erase_eq] at hentry
      split at hentry
      · cases hentry
      · exact hentry
  recorded := h.recorded
  kept := by
    intro name wanted hwant
    by_cases hsame : name = checkout
    · subst hsame
      have heq := (h.recorded hrecorded).symm.trans hwant
      exact Or.inl (Option.some.inj heq ▸ hrecorded)
    · refine (h.kept hwant).imp_right fun hat => ?_
      obtain ⟨place, htree, hentry⟩ := hat
      exact ⟨place, htree, (getElem?_erase_eq _ _ _).trans ((if_neg (Ne.symm hsame)).trans hentry)⟩

/-- A library with the same checkouts can be had back as well. -/
theorem Kept.congr (h : Kept want origin site lib journal) (hcommits : lib'.commits = lib.commits)
    (htrees : lib'.trees = lib.trees) (hadmin : lib'.admin = lib.admin) : Kept want origin site lib' journal where
  commits hwant := hcommits ▸ h.commits hwant
  admin := hadmin ▸ h.admin
  trees := htrees ▸ hadmin ▸ h.trees
  recorded := h.recorded
  kept := by
    intro checkout commit hwant
    rcases h.kept hwant with hjournal | ⟨place, htree, hentry⟩
    · exact Or.inl hjournal
    · exact Or.inr ⟨place, htrees ▸ htree, hadmin ▸ hentry⟩

/-- Once a journal has all that cannot be had otherwise, it may take the place of another. -/
theorem Kept.journaled (h : Kept want origin site lib journal)
    (hjournal : ∀ {checkout commit}, (checkout, commit) ∈ journal' → want checkout = some commit)
    (hkept : ∀ {checkout commit}, want checkout = some commit →
      (checkout, commit) ∈ journal' ∨ ∃ place, lib.At place checkout commit) :
    Kept want origin site lib journal' :=
  ⟨h.commits, h.admin, h.trees, hjournal, hkept⟩

/-- The library with a checkout at a commit, it and its entry pointing at each other. -/
def Lib.place (lib : Lib) (site : Site) (checkout commit : String) : Lib :=
  { lib with
    trees := lib.trees.insert checkout (.names site checkout)
    admin := lib.admin.insert checkout ⟨(site, checkout), some commit⟩ }

/-- A checkout that is put at a place is there. -/
theorem Lib.at_place (lib : Lib) (site : Site) (checkout commit : String) :
    (lib.place site checkout commit).At site checkout commit where
  tree := ExtTreeMap.getElem?_insert_self
  entry := ExtTreeMap.getElem?_insert_self

/-- The other checkouts stay where they are. -/
theorem Lib.At.place {place site : Site} {name commit checkout other : String} (h : lib.At place name commit)
    (hne : name ≠ checkout) : (lib.place site checkout other).At place name commit where
  tree := by rw [Lib.place, getElem?_insert_eq, if_neg hne.symm, h.tree]
  entry := by rw [Lib.place, getElem?_insert_eq, if_neg hne.symm, h.entry]

/-- A library whose checkout is put where it is wanted can be had back. -/
theorem Kept.place (h : Kept want origin site lib journal) {checkout commit : String}
    (hwant : want checkout = some commit) : Kept want origin site (lib.place site checkout commit) journal where
  commits := h.commits
  admin := by
    intro name entry hname
    rw [Lib.place, getElem?_insert_eq] at hname
    split at hname
    · rename_i hsame
      subst hsame
      exact ⟨site, commit, (Option.some.inj hname).symm, hwant, Or.inl rfl⟩
    · exact h.admin hname
  trees := by
    intro name git hname
    rw [Lib.place, getElem?_insert_eq] at hname ⊢
    split at hname
    · rename_i hsame
      subst hsame
      rw [if_pos rfl]
      refine Or.inr ⟨site, commit, (Option.some.inj hname).symm, hwant, Or.inl rfl, ?_⟩
      intro entry hentry
      rw [← Option.some.inj hentry]
    · rename_i hother
      rw [if_neg hother]
      exact h.trees hname
  recorded := h.recorded
  kept := by
    intro name wanted hname
    by_cases hsame : name = checkout
    · subst hsame
      obtain rfl := Option.some.inj (hwant.symm.trans hname)
      exact Or.inr ⟨site, lib.at_place site name commit⟩
    · rcases h.kept hname with hjournal | ⟨place, hat⟩
      · exact Or.inl hjournal
      · exact Or.inr ⟨place, hat.place hsame⟩

end Library

section Links

variable {shelf : Shelf} {site : Site} {checkout commit : String}

/-- Git can use a checkout that is at its place. -/
theorem Lib.At.resolves (h : shelf.lib.At site checkout commit) (hsite : shelf.site = site) :
    shelf.resolves checkout = true := by
  subst hsite
  rw [Shelf.resolves, h.tree, Option.any_some, Shelf.linksOk, h.entry]
  simp [GitFile.isWorktree]

/-- Git tells the commit of a checkout that is at its place. -/
theorem Lib.At.headAt (h : shelf.lib.At site checkout commit) (hsite : shelf.site = site) :
    shelf.headAt checkout = some commit := by
  subst hsite
  rw [Shelf.headAt, h.tree]
  simp only [Shelf.at, if_true, Option.bind_some, h.entry]

end Links

/-- What is known of a library while it is healed: the commits wanted, the place it came from and the one it is at,
and that nothing is left where it came from. -/
structure Care where
  want : Wanted
  origin : Site
  site : Site
  others : Site → Option Lib
  moved : origin ≠ site → others origin = none

/-- The library can be had back. -/
structure Care.Tended (care : Care) (shelf : Shelf) : Prop where
  site : shelf.site = care.site
  others : shelf.others = care.others
  kept : Kept care.want care.origin care.site shelf.lib (shelf.journal.getD [])

/-- Every command of a run does what it is asked. -/
def Smooth (fate : ℕ → Event) : Prop := ∀ step, fate step = .ok

/-- The library can be had back, and some command has not done what it is asked. -/
def Care.Broken (care : Care) (fate : ℕ → Event) (shelf : Shelf) : Prop := care.Tended shelf ∧ ¬ Smooth fate

namespace Care.Tended

variable {care : Care} {shelf : Shelf} {checkout commit : String}

/-- A checkout that git can use is where it is wanted. -/
theorem resolves_iff (h : care.Tended shelf) :
    shelf.resolves checkout = true ↔ ∃ commit, shelf.lib.At care.site checkout commit := by
  rw [Shelf.resolves, Option.any_eq_true]
  constructor
  · rintro ⟨git, hgit, hlinks⟩
    rw [Bool.and_eq_true] at hlinks
    rcases h.kept.trees hgit with rfl | ⟨place, wanted, rfl, hwant, _, hback⟩
    · exact absurd hlinks.1 Bool.false_ne_true
    · have hlinked := hlinks.2
      rw [Shelf.linksOk, Bool.and_eq_true, decide_eq_true_eq, Option.any_eq_true] at hlinked
      obtain ⟨rfl, entry, hentry, _⟩ := hlinked
      obtain ⟨place, recorded, rfl, _, _⟩ := h.kept.admin hentry
      have hplace : place = shelf.site := hback _ hentry
      subst hplace
      rw [← h.site]
      exact ⟨recorded, hgit, hentry⟩
  · rintro ⟨commit, hat⟩
    exact Option.any_eq_true _ _ |>.mp (hat.resolves h.site)

/-- A checkout whose commit git can tell is where it is wanted. -/
theorem at_of_headAt (h : care.Tended shelf) (hhead : shelf.headAt checkout = some commit) :
    shelf.lib.At care.site checkout commit := by
  rw [Shelf.headAt] at hhead
  split at hhead
  · rename_i place name htree
    rcases h.kept.trees htree with hgit | ⟨_, wanted, hgit, hwant, hplace, hback⟩
    · cases hgit
    · cases hgit
      obtain ⟨found, hfound, hrecorded⟩ := Option.bind_eq_some_iff.mp hhead
      obtain ⟨entry, hentry, hcommit⟩ := Option.bind_eq_some_iff.mp hrecorded
      by_cases hhere : place = shelf.site
      · rw [Shelf.at, if_pos hhere] at hfound
        obtain rfl := Option.some.inj hfound
        obtain ⟨recorded, head, rfl, _, _⟩ := h.kept.admin hentry
        obtain rfl := Option.some.inj hcommit
        obtain rfl : recorded = place := hback _ hentry
        rw [← h.site, ← hhere]
        exact ⟨htree, hentry⟩
      · rw [h.site] at hhere
        obtain rfl := hplace.resolve_left hhere
        rw [Shelf.at, if_neg (h.site ▸ hhere), h.others, care.moved hhere] at hfound
        cases hfound
  · cases hhead

/-- A repair leaves things as they were, or puts the checkout where it is wanted. -/
theorem relink_cases (h : care.Tended shelf) (checkout : String) :
    shelf.relink checkout = shelf ∨ ∃ commit, care.want checkout = some commit ∧
      (∃ git, shelf.lib.trees[checkout]? = some git) ∧ (∃ entry, shelf.lib.admin[checkout]? = some entry) ∧
        shelf.relink checkout = { shelf with lib := shelf.lib.place care.site checkout commit } := by
  rw [Shelf.relink]
  split
  · exact Or.inl rfl
  · rename_i name hname
    right
    rw [Shelf.entryOf] at hname
    split at hname
    · rename_i place entry htree
      rcases h.kept.trees htree with hgit | ⟨_, wanted, hgit, hwant, _⟩
      · cases hgit
      · cases hgit
        split at hname
        · rename_i hcontains
          obtain rfl := Option.some.inj hname
          obtain ⟨found, hfound⟩ := Option.isSome_iff_exists.mp (ExtTreeMap.isSome_getElem?_eq_contains.trans hcontains)
          obtain ⟨_, head, rfl, hhead, _⟩ := h.kept.admin hfound
          refine ⟨head, hhead, ⟨_, htree⟩, ⟨_, hfound⟩, ?_⟩
          rw [hfound, Lib.place, ← h.site]
          rfl
        · cases hname
    · rename_i htree
      rcases h.kept.trees htree with hgit | ⟨_, _, hgit, _⟩ <;> cases hgit
    · cases hname

/-- A library can be had back after a repair. -/
theorem relink (h : care.Tended shelf) (checkout : String) : care.Tended (shelf.relink checkout) := by
  rcases h.relink_cases checkout with heq | ⟨commit, hwant, _, _, heq⟩
  · rw [heq]
    exact h
  · rw [heq]
    exact ⟨h.site, h.others, h.kept.place hwant⟩

/-- A library can be had back after a checkout that the journal has was cleared away or left half-way. -/
theorem clear (h : care.Tended shelf) {lib : Lib} (hrecorded : (checkout, commit) ∈ shelf.journal.getD [])
    (hcommits : lib.commits = shelf.lib.commits) (hadmin : lib.admin = shelf.lib.admin)
    (htrees : ∀ other, other ≠ checkout → lib.trees[other]? = shelf.lib.trees[other]?)
    (htree : ∀ git, lib.trees[checkout]? = some git → git = .absent) : care.Tended { shelf with lib := lib } :=
  ⟨h.site, h.others, h.kept.clear hrecorded hcommits hadmin htrees htree⟩

end Care.Tended

section Commands

variable {fate : ℕ → Event} {care : Care} {before : Shelf → Prop} {dirname checkout commit : String}

/-- A command that has not done what it is asked. -/
theorem not_smooth {step : ℕ} {event : Event} (hevent : fate step = event) (hfault : event ≠ .ok) : ¬ Smooth fate :=
  fun hsmooth => hfault (hevent.symm.trans (hsmooth step))

/-- What a command meets when it does what it is asked, it meets. -/
theorem meets_command {A : Type} {problem : String} {effect : Shelf → Reply String A × Shelf} {after : A → Shelf → Prop}
    (htended : ∀ shelf, before shelf → care.Tended shelf)
    (h : ∀ shelf, before shelf → (effect shelf).1.Holds (care.Broken fate (effect shelf).2)
      fun answer => after answer (effect shelf).2) :
    Meets fate (care.Broken fate) before (command problem effect) after := by
  refine meets_act fun step shelf hbefore => ?_
  cases hevent : fate step with
  | ok => exact h shelf hbefore
  | err => exact ⟨htended shelf hbefore, not_smooth hevent (by simp)⟩
  | stop => exact ⟨htended shelf hbefore, not_smooth hevent (by simp)⟩

/-- The clone has the commits that are wanted. -/
theorem meets_hasCommit (htended : ∀ shelf, before shelf → care.Tended shelf)
    (hwant : care.want checkout = some commit) :
    Meets fate (care.Broken fate) before (hasCommit dirname commit) fun found shelf => found = true ∧ before shelf :=
  meets_command htended fun shelf hbefore =>
    ⟨List.contains_iff_mem.mpr ((htended shelf hbefore).kept.commits hwant), hbefore⟩

/-- A repair keeps what its doing keeps. -/
theorem meets_worktreeRepair (htended : ∀ shelf, before shelf → care.Tended shelf)
    (h : ∀ shelf, before shelf → before (shelf.relink checkout)) :
    Meets fate (care.Broken fate) before (worktreeRepair checkout) fun _ shelf => before shelf := by
  refine meets_act fun step shelf hbefore => ?_
  have htended := htended shelf hbefore
  cases hevent : fate step with
  | ok => exact h shelf hbefore
  | err => exact hbefore
  | stop => exact ⟨htended, not_smooth hevent (by simp)⟩

/-- Git tells the commit a checkout is at, or nothing. -/
theorem meets_headOf (htended : ∀ shelf, before shelf → care.Tended shelf) :
    Meets fate (care.Broken fate) before (headOf checkout) fun head shelf =>
      before shelf ∧ (head = none ∨ head = shelf.headAt checkout) := by
  refine meets_act fun step shelf hbefore => ?_
  have htended := htended shelf hbefore
  cases hevent : fate step with
  | ok => exact ⟨hbefore, Or.inr rfl⟩
  | err => exact ⟨hbefore, Or.inl rfl⟩
  | stop => exact ⟨htended, not_smooth hevent (by simp)⟩

end Commands

section Inspection

variable {fate : ℕ → Event} {care : Care} {dirname : String} {journal : Journal}

/-- Every commit a journal records is there. -/
theorem meets_sort {held : Shelf → Prop} (htended : ∀ shelf, held shelf → care.Tended shelf)
    (hjournal : ∀ shelf, held shelf → shelf.journal.getD [] = journal) :
    Meets fate (care.Broken fate) held (journal.foldlM (sortEntry dirname) ([], [])) fun sorted shelf =>
      sorted = (journal, []) ∧ held shelf := by
  let state (rest : Journal) (sorted : Journal × Journal) (shelf : Shelf) : Prop :=
    (sorted.1 ++ rest = journal ∧ sorted.2 = []) ∧ held shelf
  have hloop : Meets fate (care.Broken fate) (state journal ([], [])) (journal.foldlM (sortEntry dirname) ([], []))
      (state []) := by
    refine meets_foldlM state (fun entry rest sorted => ?_) journal ([], [])
    have hfact (shelf : Shelf) (hstate : state (entry :: rest) sorted shelf) : care.want entry.1 = some entry.2 := by
      have hmem : entry ∈ shelf.journal.getD [] := by
        rw [hjournal shelf hstate.2, ← hstate.1.1]
        exact List.mem_append_right _ List.mem_cons_self
      exact (htended shelf hstate.2).kept.recorded hmem
    refine meets_of_fact hfact fun hwant => ?_
    refine (meets_hasCommit (fun shelf hstate => htended shelf hstate.2) hwant).bind fun found => ?_
    cases found with
    | true =>
      refine meets_pure fun shelf hstate => ⟨⟨?_, hstate.2.1.2⟩, hstate.2.2⟩
      rw [List.append_assoc, List.singleton_append]
      exact hstate.2.1.1
    | false => exact meets_pure fun shelf hstate => absurd hstate.1 Bool.false_ne_true
  refine hloop.mono (fun shelf hheld => ⟨⟨rfl, rfl⟩, hheld⟩) fun sorted shelf hend => ⟨?_, hend.2⟩
  exact Prod.ext ((List.append_nil _).symm.trans hend.1.1) hend.1.2

/-- The captured commits are those that are wanted. -/
def Care.Captured (care : Care) (captured : ExtTreeMap String String) : Prop :=
  ∀ {checkout commit : String}, captured[checkout]? = some commit → care.want checkout = some commit

/-- What holds once every checkout but the rest has been looked at. -/
structure Care.Mended (care : Care) (captured : ExtTreeMap String String) (journal : Journal) (rest : List String)
    (pending : List Pending) (shelf : Shelf) : Prop where
  tended : care.Tended shelf
  journal : shelf.journal.getD [] = journal
  known : ∀ {name : String} {entry : Entry}, shelf.lib.admin[name]? = some entry → ∃ commit, captured[name]? = some commit
  wanted : ∀ step ∈ pending, care.want step.checkout = some step.commit
  occupied : ∀ step ∈ pending, step.occupied = shelf.lib.trees.contains step.checkout
  nodup : (pending.map Pending.checkout ++ rest).Nodup
  covers : ∀ {checkout commit place}, checkout ∉ rest → shelf.lib.At place checkout commit →
    shelf.lib.At care.site checkout commit ∨ checkout ∈ pending.map Pending.checkout

section Mended

variable {captured : ExtTreeMap String String} {rest : List String} {pending : List Pending} {shelf : Shelf}
  {checkout commit : String}

/-- A checkout is at one commit and its entry at one place. -/
theorem Lib.At.unique {lib : Lib} {place place' : Site} {commit' : String} (h : lib.At place checkout commit)
    (h' : lib.At place' checkout commit') : place = place' ∧ commit = commit' := by
  have hentry := h.entry.symm.trans h'.entry
  cases hentry
  exact ⟨rfl, rfl⟩

/-- A checkout that needs nothing is passed over. -/
theorem Care.Mended.pass (h : care.Mended captured journal (checkout :: rest) pending shelf)
    (hfine : ∀ {commit place}, shelf.lib.At place checkout commit → shelf.lib.At care.site checkout commit) :
    care.Mended captured journal rest pending shelf where
  tended := h.tended
  journal := h.journal
  known := h.known
  wanted := h.wanted
  occupied := h.occupied
  nodup := h.nodup.sublist ((List.Sublist.refl _).append (List.sublist_cons_self checkout rest))
  covers := by
    intro name commit place hrest hat
    by_cases hsame : name = checkout
    · subst hsame
      exact Or.inl (hfine hat)
    · exact h.covers (fun hmem => (List.mem_cons.mp hmem).elim hsame hrest) hat

/-- A checkout that could not be repaired is noted down. -/
theorem Care.Mended.note (h : care.Mended captured journal (checkout :: rest) pending shelf)
    (hwant : care.want checkout = some commit) (hthere : shelf.lib.trees.contains checkout = true) (verb : String) :
    care.Mended captured journal rest (pending ++ [⟨checkout, commit, verb, true⟩]) shelf where
  tended := h.tended
  journal := h.journal
  known := h.known
  wanted := by
    intro step hstep
    rcases List.mem_append.mp hstep with hbefore | hnew
    · exact h.wanted step hbefore
    · rw [List.mem_singleton.mp hnew]
      exact hwant
  occupied := by
    intro step hstep
    rcases List.mem_append.mp hstep with hbefore | hnew
    · exact h.occupied step hbefore
    · rw [List.mem_singleton.mp hnew]
      exact hthere.symm
  nodup := by
    rw [List.map_append, List.map_singleton, List.append_assoc, List.singleton_append]
    exact h.nodup
  covers := by
    intro name commit place hrest hat
    rw [List.map_append, List.mem_append, List.map_singleton, List.mem_singleton]
    by_cases hsame : name = checkout
    · exact Or.inr (Or.inr hsame)
    · exact (h.covers (fun hmem => (List.mem_cons.mp hmem).elim hsame hrest) hat).imp_right Or.inl

/-- A repair leaves what was looked at as it is. -/
theorem Care.Mended.relink (h : care.Mended captured journal (checkout :: rest) pending shelf) :
    care.Mended captured journal (checkout :: rest) pending (shelf.relink checkout) := by
  rcases h.tended.relink_cases checkout with heq | ⟨commit, hwant, ⟨git, htree⟩, ⟨entry, hentry⟩, heq⟩
  · rw [heq]
    exact h
  · have htended := h.tended.relink checkout
    rw [heq] at htended ⊢
    have hother {name : String} (hrest : name ∉ checkout :: rest) : name ≠ checkout := by
      rintro rfl
      exact hrest List.mem_cons_self
    refine ⟨htended, h.journal, ?_, h.wanted, ?_, h.nodup, ?_⟩
    · intro name found hname
      rw [Lib.place, getElem?_insert_eq] at hname
      split at hname
      · rename_i hsame
        exact h.known (hsame ▸ hentry)
      · exact h.known hname
    · intro step hstep
      rw [h.occupied step hstep, Lib.place, ExtTreeMap.contains_insert]
      by_cases hsame : checkout = step.checkout
      · rw [← hsame, ← ExtTreeMap.isSome_getElem?_eq_contains, htree]
        simp
      · simp [hsame]
    · intro name wanted place hrest hat
      have hne := hother hrest
      have hbefore : shelf.lib.At place name wanted := by
        refine ⟨?_, ?_⟩
        · have htree := hat.tree
          rwa [Lib.place, getElem?_insert_eq, if_neg hne.symm] at htree
        · have hentry := hat.entry
          rwa [Lib.place, getElem?_insert_eq, if_neg hne.symm] at hentry
      exact (h.covers hrest hbefore).imp_left fun hat => hat.place hne

/-- The commit of a checkout that git owns is recorded somewhere. -/
theorem Care.Mended.expected (h : care.Mended captured journal rest pending shelf) (hcaptured : care.Captured captured)
    (hworktree : shelf.isWorktree checkout = true) :
    ∃ commit, expectedCommit captured journal checkout = some commit ∧ care.want checkout = some commit := by
  obtain ⟨git, htree, hgit⟩ := Option.any_eq_true _ _ |>.mp hworktree
  rcases h.tended.kept.trees htree with rfl | ⟨_, commit, _, hwant, _⟩
  · exact absurd hgit Bool.false_ne_true
  · refine ⟨commit, ?_, hwant⟩
    rw [expectedCommit]
    cases hcapture : captured[checkout]? with
    | some found =>
      have hfound := hcaptured hcapture
      rw [hwant] at hfound
      rw [Option.some_or, Option.some.inj hfound]
    | none =>
      have hjournal : (checkout, commit) ∈ journal := by
        rcases h.tended.kept.kept hwant with hjournal | ⟨place, hat⟩
        · rwa [h.journal] at hjournal
        · obtain ⟨found, hfound⟩ := h.known hat.entry
          rw [hcapture] at hfound
          cases hfound
      rw [Option.none_or]
      cases hfind : journal.find? fun entry => entry.1 == checkout with
      | none => exact absurd (beq_self_eq_true checkout) (List.find?_eq_none.mp hfind _ hjournal)
      | some entry =>
        have hname := List.find?_some hfind
        have hmem : entry ∈ shelf.journal.getD [] := h.journal ▸ List.mem_of_find?_eq_some hfind
        have hentry := h.tended.kept.recorded hmem
        rw [beq_iff_eq.mp hname, hwant] at hentry
        rw [Option.map_some, Option.some.inj hentry]

/-- A repair leaves the directory there. -/
theorem contains_relink (h : shelf.lib.trees.contains checkout = true) :
    (shelf.relink checkout).lib.trees.contains checkout = true := by
  rw [Shelf.relink]
  split
  · exact h
  · exact ExtTreeMap.contains_insert_self

/-- Looking at one checkout. -/
theorem meets_mend (hcaptured : care.Captured captured) (rest : List String) (found : List String × List Pending) :
    Meets fate (care.Broken fate) (care.Mended captured journal (checkout :: rest) found.2)
      (mend dirname captured journal found checkout) fun found => care.Mended captured journal rest found.2 := by
  refine meets_read_bind fun seen => ?_
  cases hfine : seen.resolves checkout || !seen.isWorktree checkout with
  | true =>
    refine meets_pure fun shelf hstate => hstate.1.pass fun {commit place} hat => ?_
    obtain ⟨hmended, rfl⟩ := hstate
    rcases (Bool.or_eq_true _ _).mp hfine with hresolves | hbare
    · obtain ⟨other, hother⟩ := hmended.tended.resolves_iff.mp hresolves
      obtain ⟨rfl, rfl⟩ := hat.unique hother
      exact hat
    · rw [Shelf.isWorktree, hat.tree] at hbare
      simp [GitFile.isWorktree] at hbare
  | false =>
    obtain ⟨_, hworktree⟩ := Bool.or_eq_false_iff.mp hfine
    have hgit : seen.isWorktree checkout = true := by simpa using hworktree
    have hfact (shelf : Shelf)
        (hstate : care.Mended captured journal (checkout :: rest) found.2 shelf ∧ seen = shelf) :
        ∃ commit, expectedCommit captured journal checkout = some commit ∧ care.want checkout = some commit :=
      hstate.1.expected hcaptured (hstate.2 ▸ hgit)
    refine meets_of_fact hfact ?_
    rintro ⟨commit, hexpected, hwant⟩
    have hthere (shelf : Shelf)
        (hstate : care.Mended captured journal (checkout :: rest) found.2 shelf ∧ seen = shelf) :
        care.Mended captured journal (checkout :: rest) found.2 shelf ∧ shelf.lib.trees.contains checkout = true := by
      obtain ⟨hmended, rfl⟩ := hstate
      obtain ⟨git, htree, _⟩ := Option.any_eq_true _ _ |>.mp hgit
      rw [← ExtTreeMap.isSome_getElem?_eq_contains, htree]
      exact ⟨hmended, rfl⟩
    simp only [Bool.false_eq_true, if_false, hexpected]
    refine Meets.mono ?_ hthere fun _ _ => id
    refine (meets_hasCommit (fun shelf hstate => hstate.1.tended) hwant).bind fun known => ?_
    cases known with
    | false => exact meets_of_fact (fun shelf hstate => hstate.1) fun hfalse => absurd hfalse Bool.false_ne_true
    | true =>
      refine Meets.mono ?_ (fun shelf hstate => hstate.2) fun _ _ => id
      refine (meets_worktreeRepair (fun shelf hstate => hstate.1.tended)
        fun shelf hstate => ⟨hstate.1.relink, contains_relink hstate.2⟩).bind fun _ => ?_
      refine (meets_headOf fun shelf hstate => hstate.1.tended).bind fun head => ?_
      by_cases hhead : head = some commit
      · rw [if_pos hhead]
        refine meets_pure fun shelf hstate => hstate.1.1.pass fun {other place} hat => ?_
        have hseen : shelf.headAt checkout = some commit := by
          rcases hstate.2 with hnone | hsome
          · rw [hnone] at hhead
            cases hhead
          · rw [← hsome, hhead]
        have hthere := hstate.1.1.tended.at_of_headAt hseen
        obtain ⟨rfl, rfl⟩ := hat.unique hthere
        exact hat
      · rw [if_neg hhead]
        exact meets_pure fun shelf hstate => hstate.1.1.note hwant hstate.1.2 "rebuilt"

/-- The checkouts noted down are wanted, each once, and the notes tell whether a directory is in the way. -/
structure Care.Pended (care : Care) (lib : Lib) (pending : List Pending) : Prop where
  wanted : ∀ step ∈ pending, care.want step.checkout = some step.commit
  occupied : ∀ step ∈ pending, step.occupied = lib.trees.contains step.checkout
  nodup : (pending.map Pending.checkout).Nodup

/-- Noting down one checkout of the journal. -/
theorem Care.Pended.wanting (h : care.Pended shelf.lib pending) {entry : String × String}
    (hwant : care.want entry.1 = some entry.2) :
    care.Pended shelf.lib (shelf.wanting pending entry) ∧
      (∀ name ∈ pending.map Pending.checkout, name ∈ (shelf.wanting pending entry).map Pending.checkout) ∧
        (shelf.resolves entry.1 = true ∨ entry.1 ∈ (shelf.wanting pending entry).map Pending.checkout) := by
  rw [Shelf.wanting]
  split
  · rename_i hfine
    refine ⟨h, fun _ => id, ((Bool.or_eq_true _ _).mp hfine).imp_right fun hnoted => ?_⟩
    obtain ⟨step, hstep, hname⟩ := List.any_eq_true.mp hnoted
    exact List.mem_map.mpr ⟨step, hstep, beq_iff_eq.mp hname⟩
  · rename_i hfine
    rw [Bool.or_eq_true, not_or] at hfine
    have hnew : entry.1 ∉ pending.map Pending.checkout := by
      intro hmem
      obtain ⟨step, hstep, hname⟩ := List.mem_map.mp hmem
      exact hfine.2 (List.any_eq_true.mpr ⟨step, hstep, beq_iff_eq.mpr hname⟩)
    simp only [List.map_append, List.map_singleton]
    refine ⟨⟨?_, ?_, ?_⟩, fun _ => List.mem_append_left _, Or.inr (List.mem_append_right _ (List.mem_singleton_self _))⟩
    · intro step hstep
      rcases List.mem_append.mp hstep with hbefore | hlast
      · exact h.wanted step hbefore
      · rw [List.mem_singleton.mp hlast]
        exact hwant
    · intro step hstep
      rcases List.mem_append.mp hstep with hbefore | hlast
      · exact h.occupied step hbefore
      · rw [List.mem_singleton.mp hlast]
    · rw [List.map_append, List.map_singleton, ← List.concat_eq_append]
      exact h.nodup.concat hnew

/-- Noting down what the journal wants back. -/
theorem Care.Pended.wanting_foldl (h : care.Pended shelf.lib pending) {entries : Journal}
    (hwant : ∀ entry ∈ entries, care.want entry.1 = some entry.2) :
    care.Pended shelf.lib (entries.foldl shelf.wanting pending) ∧
      (∀ name ∈ pending.map Pending.checkout, name ∈ (entries.foldl shelf.wanting pending).map Pending.checkout) ∧
        ∀ entry ∈ entries, shelf.resolves entry.1 = true ∨
          entry.1 ∈ (entries.foldl shelf.wanting pending).map Pending.checkout := by
  induction entries generalizing pending with
  | nil => exact ⟨h, fun _ => id, fun _ hmem => absurd hmem List.not_mem_nil⟩
  | cons entry rest ih =>
    obtain ⟨hpended, hgrows, hfirst⟩ := h.wanting (hwant entry List.mem_cons_self)
    obtain ⟨hend, hrest, hothers⟩ := ih hpended fun other hother => hwant other (List.mem_cons_of_mem entry hother)
    refine ⟨hend, fun name hname => hrest name (hgrows name hname), fun other hother => ?_⟩
    rcases List.mem_cons.mp hother with rfl | hmem
    · exact hfirst.imp_right (hrest _)
    · exact hothers other hmem

/-- Every wanted checkout is where it is wanted, or noted down. -/
structure Care.Noted (care : Care) (journal : Journal) (pending : List Pending) (shelf : Shelf) : Prop where
  tended : care.Tended shelf
  journal : shelf.journal.getD [] = journal
  pended : care.Pended shelf.lib pending
  covers : ∀ {checkout commit}, care.want checkout = some commit →
    shelf.lib.At care.site checkout commit ∨ checkout ∈ pending.map Pending.checkout

/-- Once every checkout has been looked at, and the journal as well, all that is wanted is there or noted down. -/
theorem Care.Mended.noted (h : care.Mended captured journal [] pending shelf) :
    care.Noted journal (journal.foldl shelf.wanting pending) shelf := by
  have hwant (entry : String × String) (hentry : entry ∈ journal) : care.want entry.1 = some entry.2 :=
    h.tended.kept.recorded (h.journal ▸ hentry)
  have hpended : care.Pended shelf.lib pending := ⟨h.wanted, h.occupied, by simpa using h.nodup⟩
  obtain ⟨hend, hgrows, hentries⟩ := hpended.wanting_foldl hwant
  refine ⟨h.tended, h.journal, hend, fun {checkout commit} hname => ?_⟩
  rcases h.tended.kept.kept hname with hrecorded | ⟨place, hat⟩
  · rw [h.journal] at hrecorded
    rcases hentries _ hrecorded with hresolves | hnoted
    · obtain ⟨other, hat⟩ := h.tended.resolves_iff.mp hresolves
      obtain ⟨_, _, hentry, hother, _⟩ := h.tended.kept.admin hat.entry
      cases hentry
      obtain rfl := Option.some.inj (hname.symm.trans hother)
      exact Or.inl hat
    · exact Or.inr hnoted
  · exact (h.covers List.not_mem_nil hat).imp_right (hgrows _)

/-- Once a checkout is recorded where it is wanted, recording others leaves it. -/
theorem Care.Captured.insert (h : care.Captured captured) (hwant : care.want checkout = some commit) :
    care.Captured (captured.insert checkout commit) := by
  intro name wanted hname
  rw [getElem?_insert_eq] at hname
  split at hname
  · rename_i hsame
    rw [← hsame, hwant, hname]
  · exact h hname

/-- What is recorded stays recorded. -/
theorem exists_getElem?_insert {name : String} (hname : ∃ wanted, captured[name]? = some wanted) :
    ∃ wanted, (captured.insert checkout commit)[name]? = some wanted := by
  rw [getElem?_insert_eq]
  split
  · exact ⟨commit, rfl⟩
  · exact hname

/-- Capturing the commits of some entries. -/
theorem captureEntries_eq_ok {lib : Lib} {rows : List (String × Entry)} (hcaptured : care.Captured captured)
    (hrows : ∀ row ∈ rows, ∃ commit, row.2.head = some commit ∧ lib.checkoutName row.1 row.2 = row.1 ∧
      care.want row.1 = some commit) :
    ∃ result, rows.foldlM lib.captureEntry captured = .ok result ∧ care.Captured result ∧
      ∀ name : String, ((∃ commit, captured[name]? = some commit) ∨ name ∈ rows.map Prod.fst) →
        ∃ commit, result[name]? = some commit := by
  induction rows generalizing captured with
  | nil => exact ⟨captured, rfl, hcaptured, fun name hname => hname.resolve_right List.not_mem_nil⟩
  | cons row rest ih =>
    obtain ⟨commit, hhead, hname, hwant⟩ := hrows row List.mem_cons_self
    have hstep : lib.captureEntry captured row = .ok (captured.insert row.1 commit) := by
      rw [Lib.captureEntry, hhead]
      simp only [hname]
    obtain ⟨result, hresult, hwanted, hthere⟩ :=
      ih (hcaptured.insert hwant) fun other hother => hrows other (List.mem_cons_of_mem row hother)
    refine ⟨result, ?_, hwanted, fun name hbefore => hthere name ?_⟩
    · rw [List.foldlM_cons, hstep]
      exact hresult
    · rw [List.map_cons, List.mem_cons] at hbefore
      rcases hbefore with hrecorded | rfl | hrest
      · exact Or.inl (exists_getElem?_insert hrecorded)
      · exact Or.inl ⟨commit, ExtTreeMap.getElem?_insert_self⟩
      · exact Or.inr hrest

/-- The commits of a library that can be had back are all captured, as they are wanted. -/
theorem captureCommits_eq_ok (h : care.Tended shelf) :
    ∃ captured, captureCommits shelf.lib = .ok captured ∧ care.Captured captured ∧
      ∀ {name : String} {entry : Entry}, shelf.lib.admin[name]? = some entry →
        ∃ commit, captured[name]? = some commit := by
  have hrows (row : String × Entry) (hrow : row ∈ shelf.lib.admin.toList) : ∃ commit, row.2.head = some commit ∧
      shelf.lib.checkoutName row.1 row.2 = row.1 ∧ care.want row.1 = some commit := by
    obtain ⟨place, commit, hentry, hwant, _⟩ :=
      h.kept.admin (ExtTreeMap.mem_toList_iff_getElem?_eq_some.mp hrow)
    rw [hentry, Lib.checkoutName, ite_self]
    exact ⟨commit, rfl, rfl, hwant⟩
  have hempty : care.Captured ∅ := by
    intro name commit hname
    simp at hname
  obtain ⟨captured, hcaptured, hwanted, hthere⟩ := captureEntries_eq_ok hempty hrows
  refine ⟨captured, hcaptured, hwanted, fun {name entry} hentry => hthere name (Or.inr ?_)⟩
  exact List.mem_map.mpr ⟨(name, entry), ExtTreeMap.mem_toList_iff_getElem?_eq_some.mpr hentry, rfl⟩

end Mended

end Inspection

section Rebuilding

variable {fate : ℕ → Event} {care : Care} {dirname checkout commit : String} {journal : Journal} {shelf : Shelf}
  {captured : ExtTreeMap String String} {pending rest : List Pending}

/-- Every checkout that is wanted is where it is wanted. -/
def Care.Whole (care : Care) (lib : Lib) : Prop :=
  ∀ {checkout commit : String}, care.want checkout = some commit → lib.At care.site checkout commit

/-- The record of what is noted down, on top of what was captured. -/
def recordOf (captured : ExtTreeMap String String) (pending : List Pending) : ExtTreeMap String String :=
  pending.foldl (fun record step => record.insert step.checkout step.commit) captured

/-- What is recorded is wanted, stays recorded, and all that is noted down is recorded. -/
theorem recordOf_spec (hcaptured : care.Captured captured)
    (hwant : ∀ step ∈ pending, care.want step.checkout = some step.commit) :
    care.Captured (recordOf captured pending) ∧
      ∀ name : String, ((∃ wanted, captured[name]? = some wanted) ∨ name ∈ pending.map Pending.checkout) →
        ∃ wanted, (recordOf captured pending)[name]? = some wanted := by
  induction pending generalizing captured with
  | nil => exact ⟨hcaptured, fun name hname => hname.resolve_right List.not_mem_nil⟩
  | cons step rest ih =>
    obtain ⟨hrecord, hthere⟩ := ih (hcaptured.insert (hwant step List.mem_cons_self))
      fun other hother => hwant other (List.mem_cons_of_mem step hother)
    refine ⟨hrecord, fun name hbefore => hthere name ?_⟩
    rw [List.map_cons, List.mem_cons] at hbefore
    rcases hbefore with hrecorded | rfl | hrest
    · exact Or.inl (exists_getElem?_insert hrecorded)
    · exact Or.inl ⟨step.commit, ExtTreeMap.getElem?_insert_self⟩
    · exact Or.inr hrest

/-- The journal has what is noted down, and the rest is where it is wanted. -/
structure Care.Recorded (care : Care) (pending : List Pending) (shelf : Shelf) : Prop where
  tended : care.Tended shelf
  wanted : ∀ step ∈ pending, care.want step.checkout = some step.commit
  recorded : ∀ step ∈ pending, (step.checkout, step.commit) ∈ shelf.journal.getD []
  covers : ∀ {checkout commit}, care.want checkout = some commit → checkout ∉ pending.map Pending.checkout →
    shelf.lib.At care.site checkout commit

/-- Once the record is written, it has what is noted down. -/
theorem Care.Noted.recorded (h : care.Noted journal pending shelf) (hcaptured : care.Captured captured) :
    care.Recorded pending { shelf with journal := some (recordOf captured pending).toList } := by
  obtain ⟨hrecord, hthere⟩ := recordOf_spec hcaptured h.pended.wanted
  have hmem {name wanted : String} (hname : (recordOf captured pending)[name]? = some wanted) :
      (name, wanted) ∈ (recordOf captured pending).toList := ExtTreeMap.mem_toList_iff_getElem?_eq_some.mpr hname
  have hnoted {name : String} (hname : name ∈ pending.map Pending.checkout) {wanted : String}
      (hwant : care.want name = some wanted) : (name, wanted) ∈ (recordOf captured pending).toList := by
    obtain ⟨found, hfound⟩ := hthere name (Or.inr hname)
    obtain rfl := Option.some.inj ((hrecord hfound).symm.trans hwant)
    exact hmem hfound
  have hkept : Kept care.want care.origin care.site shelf.lib (recordOf captured pending).toList := by
    refine h.tended.kept.journaled (fun {name wanted} hname => ?_) fun {name wanted} hwant => ?_
    · exact hrecord (ExtTreeMap.mem_toList_iff_getElem?_eq_some.mp hname)
    · rcases h.covers hwant with hat | hname
      · exact Or.inr ⟨care.site, hat⟩
      · exact Or.inl (hnoted hname hwant)
  exact
    { tended := ⟨h.tended.site, h.tended.others, hkept⟩
      wanted := h.pended.wanted
      recorded := fun step hstep => hnoted (List.mem_map_of_mem hstep) (h.pended.wanted step hstep)
      covers := fun hwant hname => (h.covers hwant).resolve_right hname }

/-- What is noted down may be cleared away once it is recorded. -/
theorem Care.Recorded.clear (h : care.Recorded pending shelf) {step : Pending} (hstep : step ∈ pending) {lib : Lib}
    (hcommits : lib.commits = shelf.lib.commits) (hadmin : lib.admin = shelf.lib.admin)
    (htrees : ∀ other, other ≠ step.checkout → lib.trees[other]? = shelf.lib.trees[other]?)
    (htree : ∀ git, lib.trees[step.checkout]? = some git → git = .absent) :
    care.Recorded pending { shelf with lib := lib } where
  tended := h.tended.clear (h.recorded step hstep) hcommits hadmin htrees htree
  wanted := h.wanted
  recorded := h.recorded
  covers := by
    intro name wanted hwant hname
    have hother : name ≠ step.checkout := by
      rintro rfl
      exact hname (List.mem_map_of_mem hstep)
    obtain ⟨htree, hentry⟩ := h.covers hwant hname
    exact ⟨(htrees name hother).trans htree, hadmin ▸ hentry⟩

/-- Taking the `.git` file of what is noted down loses nothing. -/
theorem Care.Recorded.husk (h : care.Recorded pending shelf) {step : Pending} (hstep : step ∈ pending) :
    care.Recorded pending (shelf.husk step.checkout) := by
  refine h.clear hstep rfl rfl (fun other hother => ?_) fun git hgit => ?_
  · exact (getElem?_modify_eq _ _ _ _).trans (if_neg hother.symm)
  · rw [ExtTreeMap.getElem?_modify_self] at hgit
    obtain ⟨_, _, hgit⟩ := Option.map_eq_some_iff.mp hgit
    exact hgit.symm

/-- Nor does deleting its directory. -/
theorem Care.Recorded.erase (h : care.Recorded pending shelf) {step : Pending} (hstep : step ∈ pending) :
    care.Recorded pending (shelf.clear step.checkout) := by
  refine h.clear hstep rfl rfl (fun other hother => ?_) fun git hgit => ?_
  · exact (getElem?_erase_eq _ _ _).trans (if_neg hother.symm)
  · cases ExtTreeMap.getElem?_erase_self.symm.trans hgit

/-- Nor does deleting its entry. -/
theorem Care.Recorded.unregister (h : care.Recorded pending shelf) {step : Pending} (hstep : step ∈ pending) :
    care.Recorded pending (shelf.unregister step.checkout) where
  tended := ⟨h.tended.site, h.tended.others, h.tended.kept.unregister (h.recorded step hstep)⟩
  wanted := h.wanted
  recorded := h.recorded
  covers := by
    intro name wanted hwant hname
    obtain ⟨htree, hentry⟩ := h.covers hwant hname
    have hother : step.checkout ≠ name := fun heq => hname (heq ▸ List.mem_map_of_mem hstep)
    exact ⟨htree, (getElem?_erase_eq _ _ _).trans ((if_neg hother).trans hentry)⟩

/-- What is noted down is recorded, and all of it but the rest is out of the way. -/
structure Care.Cleared (care : Care) (pending rest : List Pending) (shelf : Shelf) : Prop where
  recorded : care.Recorded pending shelf
  noted : ∀ step ∈ rest, step ∈ pending
  cleared : ∀ step ∈ pending, step.checkout ∉ rest.map Pending.checkout → shelf.lib.trees[step.checkout]? = none

/-- A change of the checkout in hand alone leaves the others out of the way. -/
theorem Care.Cleared.touch {step : Pending} (h : care.Cleared pending (step :: rest) shelf) {shelf' : Shelf}
    (hrecorded : care.Recorded pending shelf')
    (htrees : ∀ other, other ≠ step.checkout → shelf'.lib.trees[other]? = shelf.lib.trees[other]?) :
    care.Cleared pending (step :: rest) shelf' where
  recorded := hrecorded
  noted := h.noted
  cleared := by
    intro other hother hrest
    have hne : other.checkout ≠ step.checkout := fun heq => hrest (heq ▸ List.mem_cons_self)
    exact (htrees _ hne).trans (h.cleared other hother hrest)

/-- The checkout in hand loses its `.git` file. -/
theorem Care.Cleared.husk {step : Pending} (h : care.Cleared pending (step :: rest) shelf) :
    care.Cleared pending (step :: rest) (shelf.husk step.checkout) :=
  h.touch (h.recorded.husk (h.noted step List.mem_cons_self)) fun _ hother =>
    (getElem?_modify_eq _ _ _ _).trans (if_neg hother.symm)

/-- The directory of the checkout in hand is deleted. -/
theorem Care.Cleared.erase {step : Pending} (h : care.Cleared pending (step :: rest) shelf) :
    care.Cleared pending (step :: rest) (shelf.clear step.checkout) :=
  h.touch (h.recorded.erase (h.noted step List.mem_cons_self)) fun _ hother =>
    (getElem?_erase_eq _ _ _).trans (if_neg hother.symm)

/-- The entry of the checkout in hand is deleted. -/
theorem Care.Cleared.unregister {step : Pending} (h : care.Cleared pending (step :: rest) shelf) :
    care.Cleared pending (step :: rest) (shelf.unregister step.checkout) :=
  h.touch (h.recorded.unregister (h.noted step List.mem_cons_self)) fun _ _ => rfl

/-- Once the checkout in hand is not there, only the rest is left. -/
theorem Care.Cleared.next {step : Pending} (h : care.Cleared pending (step :: rest) shelf)
    (hgone : shelf.lib.trees[step.checkout]? = none) : care.Cleared pending rest shelf where
  recorded := h.recorded
  noted := fun other hother => h.noted other (List.mem_cons_of_mem step hother)
  cleared := by
    intro other hother hrest
    by_cases hsame : other.checkout = step.checkout
    · rw [hsame, hgone]
    · exact h.cleared other hother fun hmem => (List.mem_cons.mp hmem).elim hsame hrest

/-- A step of a deletion takes the state on, or leaves it and some command has not done what it is asked. -/
theorem meets_deletion {effect : Shelf → Shelf} {before after : Shelf → Prop}
    (htended : ∀ shelf, before shelf → care.Tended shelf) (h : ∀ shelf, before shelf → after (effect shelf)) :
    Meets fate (care.Broken fate) before (deletion effect) fun made shelf =>
      if made then after shelf else before shelf ∧ ¬ Smooth fate := by
  refine meets_act fun number shelf hbefore => ?_
  cases hevent : fate number with
  | ok => exact h shelf hbefore
  | err => exact ⟨hbefore, not_smooth hevent (by simp)⟩
  | stop => exact ⟨htended shelf hbefore, not_smooth hevent (by simp)⟩

/-- The directory of the checkout in hand is deleted, or something of it is left. -/
theorem meets_deleteDir {step : Pending} :
    Meets fate (care.Broken fate) (care.Cleared pending (step :: rest)) (deleteDir step.checkout) fun made shelf =>
      care.Cleared pending (step :: rest) shelf ∧
        if made then shelf.lib.trees[step.checkout]? = none else ¬ Smooth fate := by
  refine (meets_deletion (fun _ hstate => hstate.recorded.tended) fun _ hstate => hstate.husk).bind fun opened => ?_
  cases opened with
  | false => exact meets_pure fun _ => id
  | true =>
    have hlast : Meets fate (care.Broken fate) (care.Cleared pending (step :: rest)) (deletion (Shelf.clear · step.checkout))
        fun made shelf =>
          if made then care.Cleared pending (step :: rest) shelf ∧ shelf.lib.trees[step.checkout]? = none
          else care.Cleared pending (step :: rest) shelf ∧ ¬ Smooth fate :=
      meets_deletion (fun _ hstate => hstate.recorded.tended) fun _ hstate =>
        ⟨hstate.erase, ExtTreeMap.getElem?_erase_self⟩
    refine hlast.mono (fun _ => id) fun made shelf hend => ?_
    cases made with
    | false => exact hend
    | true => exact hend

/-- Git deletes a checkout, or does not. -/
theorem meets_worktreeRemove {step : Pending} :
    Meets fate (care.Broken fate) (care.Cleared pending (step :: rest)) (worktreeRemove step.checkout)
      fun removed shelf => care.Cleared pending (if removed then rest else step :: rest) shelf := by
  refine meets_read_bind fun found => ?_
  cases found with
  | none => exact meets_pure fun shelf hstate => hstate.1
  | some name =>
    have hname (shelf : Shelf)
        (hstate : care.Cleared pending (step :: rest) shelf ∧ some name = shelf.ownEntry step.checkout) :
        name = step.checkout := by
      have hfound := (Option.filter_eq_some_iff.mp hstate.2.symm).1
      rw [hstate.1.recorded.tended.site] at hfound
      exact (hstate.1.recorded.tended.kept.registered hfound).1
    refine meets_of_fact hname ?_
    rintro rfl
    refine Meets.mono ?_ (fun shelf hstate => hstate.1) fun _ _ => id
    refine meets_deleteDir.bind fun deleted => ?_
    have hlast : ∀ shelf, (care.Cleared pending (step :: rest) shelf ∧
        if deleted then shelf.lib.trees[step.checkout]? = none else ¬ Smooth fate) →
          care.Cleared pending (if deleted then rest else step :: rest) (shelf.unregister step.checkout) := by
      intro shelf hstate
      cases deleted with
      | false => exact hstate.1.unregister
      | true => exact hstate.1.unregister.next hstate.2
    refine (meets_deletion (fun _ hstate => hstate.1.recorded.tended) hlast).bind fun dropped => ?_
    cases dropped with
    | false =>
      rw [Bool.and_false]
      exact meets_pure fun shelf hstate => hstate.1.1
    | true =>
      rw [Bool.and_true]
      exact meets_pure fun _ => id

/-- A checkout's directory is deleted. -/
theorem meets_removeDirAll {step : Pending} :
    Meets fate (care.Broken fate) (care.Cleared pending (step :: rest)) (removeDirAll dirname step.checkout)
      fun _ => care.Cleared pending rest := by
  refine meets_read_bind fun there => ?_
  cases there with
  | false =>
    refine meets_pure fun shelf hstate => hstate.1.next ?_
    have hthere := ExtTreeMap.isSome_getElem?_eq_contains.trans hstate.2.symm
    exact Option.not_isSome_iff_eq_none.mp (Bool.not_eq_true _ ▸ hthere)
  | true =>
    refine Meets.mono ?_ (fun shelf hstate => hstate.1) fun _ _ => id
    refine meets_deleteDir.bind fun made => ?_
    cases made with
    | true => exact meets_pure fun shelf hstate => hstate.1.next hstate.2
    | false => exact meets_fail fun shelf hstate => ⟨hstate.1.recorded.tended, hstate.2⟩

/-- One checkout is cleared out of the way. -/
theorem meets_removeTree {step : Pending} (start : Unit) :
    Meets fate (care.Broken fate) (care.Cleared pending (step :: rest)) (removeTree dirname start step)
      fun _ => care.Cleared pending rest := by
  refine meets_worktreeRemove.bind fun removed => ?_
  cases removed with
  | true => exact meets_pure fun _ => id
  | false => exact meets_removeDirAll

/-- What is left to put back is out of the way, and all else is where it is wanted. -/
structure Care.Adding (care : Care) (rest : List Pending) (shelf : Shelf) : Prop where
  tended : care.Tended shelf
  wanted : ∀ step ∈ rest, care.want step.checkout = some step.commit
  free : ∀ step ∈ rest, shelf.lib.trees[step.checkout]? = none ∧ shelf.lib.admin[step.checkout]? = none
  nodup : (rest.map Pending.checkout).Nodup
  covers : ∀ {checkout commit}, care.want checkout = some commit → checkout ∉ rest.map Pending.checkout →
    shelf.lib.At care.site checkout commit

/-- What a checkout at its place points back at is there, and nothing where a checkout came from. -/
theorem Care.Tended.reaches_iff (h : care.Tended shelf) {place : Site} {name : String}
    (hplace : place = care.site ∨ place = care.origin) :
    shelf.reaches (place, name) = true ↔ place = care.site ∧ shelf.isWorktree name = true := by
  rw [Shelf.reaches, Shelf.at]
  split
  · rename_i hhere
    rw [h.site] at hhere
    rw [Option.any_some, Shelf.isWorktree, and_iff_right hhere]
  · rename_i hhere
    rw [h.site] at hhere
    obtain rfl := hplace.resolve_left hhere
    rw [h.others, care.moved hhere]
    exact iff_of_false Bool.false_ne_true fun hboth => hhere hboth.1

/-- The entries of what is cleared away are dropped, and no others that matter. -/
theorem meets_worktreePrune (hnodup : (pending.map Pending.checkout).Nodup) :
    Meets fate (care.Broken fate) (care.Cleared pending []) (worktreePrune dirname) fun _ => care.Adding pending := by
  refine meets_command (fun shelf hstate => hstate.recorded.tended) fun shelf hstate => ?_
  obtain ⟨htended, hwanted, hrecorded, hcovers⟩ := hstate.recorded
  have hfilter {name : String} {entry : Entry} :
      (shelf.lib.admin.filter fun _ entry => shelf.reaches entry.back)[name]? = some entry ↔
        shelf.lib.admin[name]? = some entry ∧ shelf.reaches entry.back = true := getElem?_filter_eq_some _ _ _ _
  have hstays {name wanted : String} (hat : shelf.lib.At care.site name wanted) :
      (shelf.lib.admin.filter fun _ entry => shelf.reaches entry.back)[name]? =
        some ⟨(care.site, name), some wanted⟩ := by
    refine hfilter.mpr ⟨hat.entry, (htended.reaches_iff (Or.inl rfl)).mpr ⟨rfl, ?_⟩⟩
    rw [Shelf.isWorktree, hat.tree]
    rfl
  have hplaces {name wanted : String} (hwant : care.want name = some wanted)
      (hname : name ∉ pending.map Pending.checkout) :
      Lib.At { shelf.lib with admin := shelf.lib.admin.filter fun _ entry => shelf.reaches entry.back } care.site name
        wanted := ⟨(hcovers hwant hname).tree, hstays (hcovers hwant hname)⟩
  have hkept : Kept care.want care.origin care.site
      { shelf.lib with admin := shelf.lib.admin.filter fun _ entry => shelf.reaches entry.back }
      (shelf.journal.getD []) :=
    { commits := htended.kept.commits
      admin := fun hname => htended.kept.admin (hfilter.mp hname).1
      trees := fun hname => by
        rcases htended.kept.trees hname with habsent | ⟨place, wanted, hgit, hwant, hplace, hback⟩
        · exact Or.inl habsent
        · exact Or.inr ⟨place, wanted, hgit, hwant, hplace, fun entry hentry => hback entry (hfilter.mp hentry).1⟩
      recorded := htended.kept.recorded
      kept := fun {name wanted} hwant => by
        by_cases hname : name ∈ pending.map Pending.checkout
        · obtain ⟨step, hstep, rfl⟩ := List.mem_map.mp hname
          obtain rfl := Option.some.inj ((hwanted step hstep).symm.trans hwant)
          exact Or.inl (hrecorded step hstep)
        · exact Or.inr ⟨care.site, hplaces hwant hname⟩ }
  refine ⟨⟨htended.site, htended.others, hkept⟩, hwanted, fun step hstep => ?_, hnodup, hplaces⟩
  have htree := hstate.cleared step hstep List.not_mem_nil
  refine ⟨htree, Option.eq_none_iff_forall_ne_some.mpr fun entry hentry => ?_⟩
  obtain ⟨hadmin, hreaches⟩ := hfilter.mp hentry
  obtain ⟨place, wanted, rfl, _, hplace⟩ := htended.kept.admin hadmin
  have hworktree := ((htended.reaches_iff hplace).mp hreaches).2
  rw [Shelf.isWorktree, htree] at hworktree
  cases hworktree

/-- A name that is free is that of the new entry. -/
theorem freshEntry_of_free {admin : ExtTreeMap String Entry} (h : admin[checkout]? = none) :
    freshEntry admin checkout = checkout := by
  have hfree : admin.contains checkout = false := by
    rw [← ExtTreeMap.isSome_getElem?_eq_contains, h]
    rfl
  rw [freshEntry, List.find?_cons, hfree]
  rfl

/-- One checkout is put back. -/
theorem meets_addTree {step : Pending} (lines : List String) :
    Meets fate (care.Broken fate) (care.Adding (step :: rest)) (addTree dirname lines step)
      fun _ => care.Adding rest := by
  have hadd : Meets fate (care.Broken fate) (care.Adding (step :: rest)) (worktreeAdd dirname step.checkout step.commit)
      fun _ => care.Adding rest := by
    refine meets_command (fun shelf hstate => hstate.tended) fun shelf hstate => ?_
    have hwant := hstate.wanted step List.mem_cons_self
    obtain ⟨htree, hentry⟩ := hstate.free step List.mem_cons_self
    have hcontains : shelf.lib.trees.contains step.checkout = false := by
      rw [← ExtTreeMap.isSome_getElem?_eq_contains, htree]
      rfl
    have hregistered : shelf.lib.registered (shelf.site, step.checkout) = none := by
      rw [hstate.tended.site]
      exact hstate.tended.kept.registered_eq_none hentry
    have hcommit : shelf.lib.commits.contains step.commit = true :=
      List.contains_iff_mem.mpr (hstate.tended.kept.commits hwant)
    simp only [hcontains, hregistered, hcommit, Option.isSome_none, Bool.not_true, Bool.or_self, Bool.false_eq_true,
      if_false, freshEntry_of_free hentry]
    obtain ⟨hfirst, hnodup⟩ := List.nodup_cons.mp hstate.nodup
    have hother {other : Pending} (hmem : other ∈ rest) : other.checkout ≠ step.checkout := fun heq =>
      hfirst (heq ▸ List.mem_map_of_mem hmem)
    change care.Adding rest { shelf with lib := shelf.lib.place shelf.site step.checkout step.commit }
    rw [hstate.tended.site]
    refine ⟨⟨rfl, hstate.tended.others, hstate.tended.kept.place hwant⟩,
      fun other hmem => hstate.wanted other (List.mem_cons_of_mem step hmem), fun other hmem => ?_, hnodup,
      fun {name wanted} hname hrest => ?_⟩
    · obtain ⟨htree', hentry'⟩ := hstate.free other (List.mem_cons_of_mem step hmem)
      rw [Lib.place, getElem?_insert_eq, getElem?_insert_eq, if_neg (hother hmem).symm, if_neg (hother hmem).symm]
      exact ⟨htree', hentry'⟩
    · by_cases hsame : name = step.checkout
      · subst hsame
        obtain rfl := Option.some.inj (hwant.symm.trans hname)
        exact shelf.lib.at_place care.site step.checkout step.commit
      · refine (hstate.covers hname fun hmem => ?_).place hsame
        exact (List.mem_cons.mp hmem).elim hsame hrest
  exact hadd.bind fun _ => meets_pure fun _ => id

/-- The library can be had back, and every checkout is where it is wanted. -/
def Care.Healed (care : Care) (shelf : Shelf) : Prop := care.Tended shelf ∧ care.Whole shelf.lib

/-- A journal is deleted where it is spent. -/
theorem meets_settle (hjournal : ∀ entry ∈ journal, care.want entry.1 = some entry.2) :
    Meets fate (care.Broken fate) care.Healed (settle dirname journal) fun _ => care.Healed := by
  refine meets_read_bind fun seen => ?_
  have hspent (shelf : Shelf) (hstate : care.Healed shelf ∧ seen = shelf.journalSatisfied journal) : seen = true := by
    rw [hstate.2]
    exact List.all_eq_true.mpr fun entry hentry =>
      hstate.1.1.resolves_iff.mpr ⟨entry.2, hstate.1.2 (hjournal entry hentry)⟩
  refine meets_of_fact hspent fun hseen => ?_
  rw [if_pos hseen]
  refine meets_command (fun shelf hstate => hstate.1.1) fun shelf hstate => ?_
  obtain ⟨⟨htended, hwhole⟩, _⟩ := hstate
  refine ⟨⟨htended.site, htended.others, ?_⟩, hwhole⟩
  exact htended.kept.journaled (fun hmem => absurd hmem List.not_mem_nil) fun hwant => Or.inr ⟨care.site, hwhole hwant⟩

/-- A rebuild has every checkout where it is wanted. -/
theorem meets_rebuild (hcaptured : care.Captured captured) (lines : List String) :
    Meets fate (care.Broken fate) (care.Noted journal pending) (rebuild dirname captured journal lines pending)
      fun _ => care.Healed := by
  refine meets_of_fact (fun shelf hstate => hstate.pended.nodup) fun hnodup => ?_
  have hfact (shelf : Shelf) (hstate : care.Noted journal pending shelf) :
      ∀ entry ∈ journal, care.want entry.1 = some entry.2 :=
    fun entry hentry => hstate.tended.kept.recorded (hstate.journal ▸ hentry)
  refine meets_of_fact hfact fun hjournal => ?_
  have hwrite : Meets fate (care.Broken fate) (care.Noted journal pending)
      (writeJournal dirname (recordOf captured pending))
      fun _ => care.Cleared pending (pending.filter Pending.occupied) := by
    refine meets_command (fun shelf hstate => hstate.tended) fun shelf hstate => ?_
    refine ⟨hstate.recorded hcaptured, fun step hstep => (List.mem_filter.mp hstep).1, fun step hstep hfree => ?_⟩
    have hoccupied : step.occupied = false := by
      cases hcase : step.occupied with
      | false => rfl
      | true => exact absurd (List.mem_map_of_mem (List.mem_filter.mpr ⟨hstep, hcase⟩)) hfree
    rw [hstate.pended.occupied step hstep, ← ExtTreeMap.isSome_getElem?_eq_contains] at hoccupied
    exact Option.not_isSome_iff_eq_none.mp (Bool.not_eq_true _ ▸ hoccupied)
  refine hwrite.bind fun _ => ?_
  refine (meets_foldlM (fun rest _ => care.Cleared pending rest) (fun _ _ start => meets_removeTree start) _ ()).bind
    fun _ => ?_
  refine (meets_worktreePrune hnodup).bind fun _ => ?_
  refine (meets_foldlM (fun rest _ => care.Adding rest) (fun _ _ lines => meets_addTree lines) pending lines).bind
    fun lines => ?_
  have hend (shelf : Shelf) (hstate : care.Adding [] shelf) : care.Healed shelf :=
    ⟨hstate.tended, fun hwant => hstate.covers hwant List.not_mem_nil⟩
  refine ((meets_settle hjournal).mono hend fun _ _ => id).bind fun _ => ?_
  exact meets_pure fun _ => id

/-- Healing has every checkout where it is wanted. -/
theorem meets_heal : Meets fate (care.Broken fate) care.Tended (heal dirname) fun _ => care.Healed := by
  refine meets_ask_bind (fun shelf hstate => ?_) fun captured => ?_
  · obtain ⟨captured, hcaptured, _⟩ := captureCommits_eq_ok hstate
    exact ⟨captured, hcaptured⟩
  refine meets_read_bind fun journal => ?_
  have hfact (shelf : Shelf)
      (hstate : (care.Tended shelf ∧ captureCommits shelf.lib = .ok captured) ∧ journal = shelf.journal.getD []) :
      care.Captured captured ∧ ∀ entry ∈ journal, care.want entry.1 = some entry.2 := by
    obtain ⟨⟨htended, hcapture⟩, rfl⟩ := hstate
    obtain ⟨found, hfound, hcaptured, _⟩ := captureCommits_eq_ok htended
    obtain rfl := Except.ok.inj (hfound.symm.trans hcapture)
    exact ⟨hcaptured, fun entry hentry => htended.kept.recorded hentry⟩
  refine meets_of_fact hfact ?_
  rintro ⟨hcaptured, hjournal⟩
  refine (meets_sort (fun shelf hstate => hstate.1.1) fun shelf hstate => hstate.2.symm).bind fun sorted => ?_
  refine meets_of_fact (fun shelf hstate => hstate.1) ?_
  rintro rfl
  refine meets_read_bind fun checkouts => ?_
  have hstart (shelf : Shelf)
      (hstate : (((journal, ([] : Journal)) = (journal, []) ∧
        (care.Tended shelf ∧ captureCommits shelf.lib = .ok captured) ∧ journal = shelf.journal.getD [])) ∧
          checkouts = shelf.lib.trees.keys) : care.Mended captured journal checkouts [] shelf := by
    obtain ⟨⟨_, ⟨htended, hcapture⟩, rfl⟩, rfl⟩ := hstate
    obtain ⟨found, hfound, _, hknown⟩ := captureCommits_eq_ok htended
    obtain rfl := Except.ok.inj (hfound.symm.trans hcapture)
    refine ⟨htended, rfl, hknown, ?_, ?_, ?_, fun {name wanted place} hrest hat => ?_⟩
    · exact fun _ hmem => absurd hmem List.not_mem_nil
    · exact fun _ hmem => absurd hmem List.not_mem_nil
    · exact ExtTreeMap.nodup_keys
    · rw [ExtTreeMap.mem_keys, ExtTreeMap.mem_iff_isSome_getElem?, hat.tree] at hrest
      exact absurd rfl hrest
  refine Meets.mono ?_ hstart fun _ _ => id
  have hloop : Meets fate (care.Broken fate) (care.Mended captured journal checkouts [])
      (checkouts.foldlM (mend dirname captured journal) ([], []))
      fun found => care.Mended captured journal [] found.2 :=
    meets_foldlM (fun rest found => care.Mended captured journal rest found.2)
      (fun _ rest found => meets_mend hcaptured rest found) checkouts ([], [])
  refine hloop.bind fun found => ?_
  refine meets_read_bind fun pending => ?_
  have hnoted (shelf : Shelf)
      (hstate : care.Mended captured journal [] found.2 shelf ∧ pending = journal.foldl shelf.wanting found.2) :
      care.Noted journal pending shelf := by
    obtain ⟨hmended, rfl⟩ := hstate
    exact hmended.noted
  refine Meets.mono ?_ hnoted fun _ _ => id
  cases pending with
  | nil =>
    have hend (shelf : Shelf) (hstate : care.Noted journal [] shelf) : care.Healed shelf :=
      ⟨hstate.tended, fun hwant => (hstate.covers hwant).resolve_right List.not_mem_nil⟩
    refine ((meets_settle hjournal).mono hend fun _ _ => id).bind fun _ => ?_
    exact meets_pure fun _ => id
  | cons step rest => exact meets_rebuild hcaptured found.1

/-- A sidecar is written beside the checkouts. -/
theorem meets_writeSidecar (sidecar : Sidecar) :
    Meets fate (care.Broken fate) care.Healed (writeSidecar sidecar) fun _ => care.Healed :=
  meets_command (fun _ hstate => hstate.1) fun _ hstate =>
    ⟨⟨hstate.1.site, hstate.1.others, hstate.1.kept.congr rfl rfl rfl⟩,
      fun hwant => ⟨(hstate.2 hwant).tree, (hstate.2 hwant).entry⟩⟩

/-- Recording where the clone came from leaves the checkouts as they are. -/
theorem meets_backfillOrigin :
    Meets fate (care.Broken fate) care.Healed (backfillOrigin dirname) fun _ => care.Healed := by
  refine meets_read_bind fun sidecar => Meets.mono ?_ (fun _ hstate => hstate.1) fun _ _ => id
  by_cases hknown : sidecar.origin.isSome = true
  · rw [if_pos hknown]
    exact meets_pure fun _ => id
  · rw [if_neg hknown]
    refine (meets_act fun step shelf hstate => ?_ : Meets fate (care.Broken fate) care.Healed _ fun _ => care.Healed).bind
      fun origin => ?_
    · cases hevent : fate step with
      | ok => exact hstate
      | err => exact hstate
      | stop => exact ⟨hstate.1, not_smooth hevent (by simp)⟩
    · cases origin with
      | none => exact meets_pure fun _ => id
      | some origin => exact (meets_writeSidecar _).bind fun _ => meets_pure fun _ => id

/-- Recording sizes leaves the checkouts as they are. -/
theorem meets_backfillSizes :
    Meets fate (care.Broken fate) care.Healed (backfillSizes dirname) fun _ => care.Healed := by
  refine meets_read_bind fun lib => Meets.mono ?_ (fun _ hstate => hstate.1) fun _ _ => id
  by_cases hmeasured : lib.unmeasured.isEmpty = true
  · rw [if_pos hmeasured]
    exact meets_pure fun _ => id
  · rw [if_neg hmeasured]
    exact (meets_writeSidecar _).bind fun _ => meets_pure fun _ => id

/-- So a library is healed when its sidecar is filled in. -/
theorem meets_healAndBackfill :
    Meets fate (care.Broken fate) care.Tended (healAndBackfill dirname) fun _ => care.Healed :=
  meets_heal.bind fun _ => meets_backfillOrigin.bind fun _ => meets_backfillSizes.bind fun _ => meets_pure fun _ => id

/-- A library that needs no attention is healed. -/
theorem Care.Tended.healed (h : care.Tended shelf) (hfine : shelf.needsAttention = false) : care.Healed shelf := by
  simp only [Shelf.needsAttention, Bool.or_eq_false_iff, Option.isSome_eq_false_iff, Option.isNone_iff_eq_none,
    List.any_eq_false, Bool.and_eq_true, Bool.not_eq_true', not_and, Bool.not_eq_false] at hfine
  obtain ⟨⟨⟨hjournal, _⟩, _⟩, hresolves⟩ := hfine
  refine ⟨h, fun {checkout commit} hwant => ?_⟩
  rcases h.kept.kept hwant with hmem | ⟨place, hat⟩
  · rw [hjournal] at hmem
    exact absurd hmem List.not_mem_nil
  · have hthere : checkout ∈ shelf.lib.trees.keys := by
      rw [ExtTreeMap.mem_keys, ExtTreeMap.mem_iff_isSome_getElem?, hat.tree]
      rfl
    have hworktree : shelf.isWorktree checkout = true := by
      rw [Shelf.isWorktree, hat.tree]
      rfl
    obtain ⟨other, hother⟩ := h.resolves_iff.mp (hresolves checkout hthere hworktree)
    obtain ⟨rfl, rfl⟩ := hat.unique hother
    exact hat

end Rebuilding

end Devkit.Docs
