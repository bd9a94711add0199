import Devkit.Docs.Cache

/-!
# A checkout that is wanted stays

Whoever works on a library holds its lock, so what one process learns about the library under the lock stays true
until it lets go. A prune therefore keeps every row of a live project that it finds, deletes no checkout of one,
and the row and the checkout of a resolve that has returned are there for as long as its project wants them.
-/

namespace Devkit.Docs

open Devkit.Common Devkit.Library

/-- The library that a process works on under its lock. -/
def Stage.lib : Stage → Option String
  | .clone resolution => some resolution.lib
  | .materialize resolution => some resolution.lib
  | .record resolution _ => some resolution.lib
  | .forget _ lib => some lib
  | .snapshot task => some (decode task.dirname)
  | .list task _ => some (decode task.dirname)
  | .judge task _ _ _ _ => some (decode task.dirname)
  | .weigh task _ _ _ _ _ _ => some (decode task.dirname)
  | .remove task _ _ _ => some (decode task.dirname)
  | .reconcile task _ _ => some (decode task.dirname)
  | .checkRows dirname => some (decode dirname)
  | .deleteAll dirname => some (decode dirname)
  | .unlock _ => none

/-- What a process knows under the lock of its library. -/
def Stage.Sound (disk : Disk) : Stage → Prop
  | .record resolution worktree => worktree ∈ disk.entries (encode resolution.lib)
  | .list task seen => ∀ row ∈ seen.rows, row.lib = decode task.dirname
  | .judge task seen _ _ _ => ∀ row ∈ seen.rows, row.lib = decode task.dirname
  | .weigh task seen _ _ _ _ _ => ∀ row ∈ seen.rows, row.lib = decode task.dirname
  | .remove task seen _ delete =>
    (∀ row ∈ seen.rows, row.lib = decode task.dirname) ∧ ∀ pair ∈ delete, pair.1 = decode task.dirname
  | .reconcile task seen _ => ∀ row ∈ seen.rows, row.lib = decode task.dirname
  | _ => True

/-- The process has not decided against the row so far. -/
def Stage.Spares (row : RefRow) : Stage → Prop
  | .list _ seen => row ∈ seen.rows
  | .judge _ seen _ keep unseen => row ∈ seen.rows ∧ (row ∈ keep ∨ row ∈ unseen)
  | .weigh _ seen _ keep unseen weighed _ => row ∈ seen.rows ∧ (row ∈ keep ∨ row ∈ weighed :: unseen)
  | .remove _ _ plan delete => row ∈ plan.keep ∧ (row.lib, row.version) ∉ delete
  | .reconcile _ _ plan => row ∈ plan.keep
  | .deleteAll _ => False
  | _ => True

/-- The manifests that a prune has read for a row of the key are those that its project has. -/
def Stage.Fresh (world : World) (key : String × String) : Stage → Prop
  | .weigh _ _ _ _ _ row (.manifest libs) => row.key = key → libs = world.discover key.1
  | _ => True

/-- The place holds no lock. -/
def Place.Outside : Place → Prop
  | .inside _ _ => False
  | _ => True

section Rows

variable {data : Data} {row : RefRow} {workspace lib : String}

/-- A record leaves a row of its key at the checkout it records. -/
theorem exists_mem_upsert (rows : List RefRow) (key : String × String) (checkout : Checkout) :
    ∃ row ∈ upsert key.1 key.2 checkout rows, row.key = key ∧ row.version = checkout.dirname ∧
      row.commit = checkout.commit := by
  induction rows with
  | nil => exact ⟨_, List.mem_singleton_self _, rfl, rfl, rfl⟩
  | cons first rest ih =>
    rw [upsert]
    split
    · rename_i hsame
      exact ⟨_, List.mem_cons_self, Data.key_eq_iff.mpr hsame, rfl, rfl⟩
    · obtain ⟨row, hrow, hrest⟩ := ih
      exact ⟨row, List.mem_cons_of_mem first hrow, hrest⟩

/-- A row with an identity is not retired. -/
theorem Data.mem_retireLegacy (hrow : row ∈ data.rows) (hcommit : row.commit.isEmpty = false) :
    row ∈ (data.retireLegacy workspace lib).rows := by
  refine List.mem_filter.mpr ⟨hrow, ?_⟩
  rw [hcommit, Bool.and_false, Bool.false_and]
  rfl

/-- A row that the prune keeps, or whose library it did not look at, is not dropped. -/
theorem Data.mem_reconcile {seen : Data} {keep : List RefRow} (hrow : row ∈ data.rows)
    (hkeep : (∃ old ∈ seen.rows, old.lib = row.lib) → row ∈ keep) : row ∈ (data.reconcile seen keep).rows := by
  refine List.mem_filter.mpr ⟨hrow, ?_⟩
  split
  · rfl
  · rename_i old hold
    have hmem := List.mem_reverse.mp (List.mem_of_find?_eq_some hold)
    have hsame : (old.key == row.key) = true :=
      List.find?_some (p := fun other : RefRow => other.key == row.key) hold
    have hkey : old.key = row.key := beq_iff_eq.mp hsame
    have hkept := hkeep ⟨old, hmem, (Prod.ext_iff.mp hkey).2⟩
    rw [Bool.or_eq_true]
    exact Or.inl (List.any_eq_true.mpr ⟨row, hkept, beq_self_eq_true _⟩)

end Rows

namespace Cache

/-- Each lock is held by the process inside it, and a process inside works on the library the lock is for. -/
structure Locked (cache : Cache) : Prop where
  held : ∀ lock process, cache.locks lock = some process ↔ ∃ stage, cache.places process = .inside lock stage
  named : ∀ {process lock stage lib}, cache.places process = .inside lock stage → stage.lib = some lib →
    lockPath lib = .ok lock

/-- Only one process works on a library. -/
theorem Locked.alone {cache : Cache} (h : cache.Locked) {process other : ℕ} {lock lock' : String}
    {stage stage' : Stage} {lib : String} (hplace : cache.places process = .inside lock stage)
    (hother : cache.places other = .inside lock' stage') (hlib : stage.lib = some lib)
    (hlib' : stage'.lib = some lib) : other = process := by
  have hsame : lock' = lock :=
    Except.ok.inj ((h.named hother hlib').symm.trans (h.named hplace hlib))
  have hholds := (h.held lock process).mpr ⟨stage, hplace⟩
  have hholds' := (h.held lock other).mpr ⟨stage', hsame ▸ hother⟩
  exact Option.some.inj (hholds'.symm.trans hholds)

section Steps

variable {cache : Cache} {process : ℕ}

@[simp] theorem goto_registry (place : Place) : (cache.goto process place).registry = cache.registry := rfl

@[simp] theorem goto_disk (place : Place) : (cache.goto process place).disk = cache.disk := rfl

@[simp] theorem goto_locks (place : Place) : (cache.goto process place).locks = cache.locks := rfl

@[simp] theorem goto_places (place : Place) :
    (cache.goto process place).places = Function.update cache.places process place := rfl

@[simp] theorem release_registry : (cache.release process).registry = cache.registry := rfl

@[simp] theorem release_disk : (cache.release process).disk = cache.disk := rfl

@[simp] theorem release_places : (cache.release process).places = cache.places := rfl

/-- A prune that looks at the next row only goes on. -/
theorem advance_judge (cache : Cache) (process : ℕ) (lock : String) (task : PruneTask) (seen : Data)
    (worktrees : List String) (keep unseen : List RefRow) :
    ∃ place, cache.advance process lock (.judge task seen worktrees keep unseen) = cache.goto process place := by
  cases unseen with
  | nil => exact ⟨_, rfl⟩
  | cons row unseen =>
    rw [advance]
    split
    · exact ⟨_, rfl⟩
    · exact ⟨_, rfl⟩

/-- A step inside a lock stays inside, on the same library or on none, or lets the lock go. -/
theorem advance_cases (cache : Cache) (process : ℕ) (lock : String) (stage : Stage) :
    (∃ stage' : Stage,
      (cache.advance process lock stage).places = Function.update cache.places process (.inside lock stage') ∧
      (cache.advance process lock stage).locks = cache.locks ∧ (stage'.lib = stage.lib ∨ stage'.lib = none)) ∨
    ∃ place : Place, place.Outside ∧ cache.advance process lock stage = (cache.release process).goto process place := by
  cases stage with
  | clone => exact Or.inl ⟨_, rfl, rfl, Or.inl rfl⟩
  | materialize resolution =>
    rw [advance]
    split
    · exact Or.inr ⟨.idle, trivial, rfl⟩
    · exact Or.inl ⟨_, rfl, rfl, Or.inl rfl⟩
  | record => exact Or.inl ⟨_, rfl, rfl, Or.inr rfl⟩
  | forget => exact Or.inl ⟨_, rfl, rfl, Or.inr rfl⟩
  | snapshot => exact Or.inl ⟨_, rfl, rfl, Or.inl rfl⟩
  | list => exact Or.inl ⟨_, rfl, rfl, Or.inl rfl⟩
  | judge task seen worktrees keep unseen =>
    cases unseen with
    | nil => exact Or.inl ⟨_, rfl, rfl, Or.inl rfl⟩
    | cons row unseen =>
      rw [advance]
      split
      · exact Or.inl ⟨_, rfl, rfl, Or.inl rfl⟩
      · exact Or.inl ⟨_, rfl, rfl, Or.inl rfl⟩
  | weigh task seen worktrees keep unseen row reading =>
    cases reading with
    | there => exact Or.inl ⟨_, rfl, rfl, Or.inl rfl⟩
    | manifest => exact Or.inl ⟨_, rfl, rfl, Or.inl rfl⟩
  | remove task seen plan delete =>
    cases delete with
    | nil => exact Or.inl ⟨_, rfl, rfl, Or.inl rfl⟩
    | cons => exact Or.inl ⟨_, rfl, rfl, Or.inl rfl⟩
  | reconcile => exact Or.inl ⟨_, rfl, rfl, Or.inr rfl⟩
  | checkRows dirname =>
    rw [advance]
    split
    · exact Or.inl ⟨_, rfl, rfl, Or.inr rfl⟩
    · exact Or.inl ⟨_, rfl, rfl, Or.inl rfl⟩
  | deleteAll dirname =>
    rw [advance]
    split
    · exact Or.inl ⟨_, rfl, rfl, Or.inr rfl⟩
    · exact Or.inl ⟨_, rfl, rfl, Or.inl rfl⟩
  | unlock pruning =>
    cases pruning with
    | none => exact Or.inr ⟨.idle, trivial, rfl⟩
    | some pruning => exact Or.inr ⟨.pruning pruning.1 pruning.2, trivial, rfl⟩

/-- A step inside a lock moves the process alone. -/
theorem advance_others (cache : Cache) (process : ℕ) (lock : String) (stage : Stage) {other : ℕ}
    (hother : other ≠ process) : (cache.advance process lock stage).places other = cache.places other := by
  rcases advance_cases cache process lock stage with ⟨stage', hplaces, _⟩ | ⟨place, _, heq⟩
  · rw [hplaces, Function.update_of_ne hother]
  · rw [heq, goto_places, Function.update_of_ne hother, release_places]

/-- A step inside a lock adds rows of its library only. -/
theorem advance_rows (cache : Cache) (process : ℕ) (lock : String) (stage : Stage) {row : RefRow}
    (h : row ∈ (cache.advance process lock stage).registry.rows) :
    row ∈ cache.registry.rows ∨ stage.lib = some row.lib := by
  cases stage with
  | record resolution worktree =>
    have hrow := (List.mem_filter.mp h).1
    by_cases hkey : row.key = (resolution.workspace, resolution.lib)
    · exact Or.inr (congrArg some (Data.key_eq_iff.mp hkey).2.symm)
    · exact Or.inl ((mem_upsert_of_ne hkey).mp hrow)
  | forget => exact Or.inl (List.mem_filter.mp h).1
  | reconcile => exact Or.inl (List.mem_filter.mp h).1
  | clone => exact Or.inl h
  | materialize resolution =>
    rw [advance] at h
    split at h <;> exact Or.inl h
  | snapshot => exact Or.inl h
  | list => exact Or.inl h
  | judge task seen worktrees keep unseen =>
    obtain ⟨place, heq⟩ := advance_judge cache process lock task seen worktrees keep unseen
    rw [heq] at h
    exact Or.inl h
  | weigh task seen worktrees keep unseen row reading => cases reading <;> exact Or.inl h
  | remove task seen plan delete => cases delete <;> exact Or.inl h
  | checkRows dirname =>
    rw [advance] at h
    split at h <;> exact Or.inl h
  | deleteAll dirname =>
    rw [advance] at h
    split at h <;> exact Or.inl h
  | unlock pruning => cases pruning <;> exact Or.inl h

/-- A step inside a lock deletes inside the directory of its library only. -/
theorem advance_entries (cache : Cache) (process : ℕ) (lock : String) (stage : Stage) {dirname entry : String}
    (h : entry ∈ cache.disk.entries dirname) :
    entry ∈ (cache.advance process lock stage).disk.entries dirname ∨ stage.lib = some (decode dirname) := by
  cases stage with
  | clone => exact Or.inl (Disk.mem_add.mpr (Or.inl h))
  | materialize resolution =>
    rw [advance]
    split
    · exact Or.inl h
    · exact Or.inl (Disk.mem_add.mpr (Or.inl h))
  | remove task seen plan delete =>
    cases delete with
    | nil => exact Or.inl h
    | cons pair rest =>
      by_cases hdir : dirname = task.dirname
      · exact Or.inr (congrArg (some ∘ decode) hdir.symm)
      · exact Or.inl (Disk.mem_remove.mpr ⟨h, fun hboth => hdir hboth.1⟩)
  | deleteAll dirname' =>
    by_cases hdir : dirname = dirname'
    · exact Or.inr (congrArg (some ∘ decode) hdir.symm)
    · refine Or.inl ?_
      rw [advance]
      split
      · exact Disk.mem_erase.mpr ⟨h, hdir⟩
      · exact Disk.mem_remove.mpr ⟨h, fun hboth => hdir hboth.1⟩
  | record => exact Or.inl h
  | forget => exact Or.inl h
  | snapshot => exact Or.inl h
  | list => exact Or.inl h
  | judge task seen worktrees keep unseen =>
    obtain ⟨place, heq⟩ := advance_judge cache process lock task seen worktrees keep unseen
    rw [heq]
    exact Or.inl h
  | weigh task seen worktrees keep unseen row reading => cases reading <;> exact Or.inl h
  | reconcile => exact Or.inl h
  | checkRows dirname' =>
    rw [advance]
    split <;> exact Or.inl h
  | unlock pruning => cases pruning <;> exact Or.inl h

end Steps

section Locks

variable {cache : Cache} {process : ℕ}

/-- A process outside holds no lock. -/
theorem Locked.release_eq (h : cache.Locked) (houtside : (cache.places process).Outside) :
    cache.release process = cache := by
  have hlocks (lock : String) : cache.locks lock ≠ some process := by
    intro hholds
    obtain ⟨stage, hplace⟩ := (h.held lock process).mp hholds
    rw [hplace] at houtside
    exact houtside
  rw [release]
  congr
  funext lock
  exact if_neg (hlocks lock)

/-- A process that is outside after it let its lock go. -/
theorem Locked.leave (h : cache.Locked) {place : Place} (houtside : place.Outside) :
    ((cache.release process).goto process place).Locked := by
  have hplace {other : ℕ} {lock : String} {stage : Stage} :
      Function.update cache.places process place other = .inside lock stage ↔
        other ≠ process ∧ cache.places other = .inside lock stage := by
    by_cases hsame : other = process
    · subst hsame
      rw [Function.update_self]
      refine iff_of_false (fun heq => ?_) fun hboth => hboth.1 rfl
      rw [heq] at houtside
      exact houtside
    · rw [Function.update_of_ne hsame, and_iff_right hsame]
  constructor
  · intro lock other
    have hholds := h.held lock other
    simp only [goto_places, hplace, goto_locks, release]
    split
    · rename_i hmine
      refine iff_of_false (Option.some_ne_none other).symm fun ⟨stage, hne, hother⟩ => hne ?_
      exact Option.some.inj ((hholds.mpr ⟨stage, hother⟩).symm.trans hmine)
    · rename_i hmine
      rw [exists_and_left]
      exact ⟨fun hlock => ⟨fun hsame => hmine (hsame ▸ hlock), hholds.mp hlock⟩, fun hboth => hholds.mpr hboth.2⟩
  · intro other lock stage lib hother
    exact h.named (hplace.mp hother).2

/-- A process goes on outside. -/
theorem Locked.goto (h : cache.Locked) (hbefore : (cache.places process).Outside) {place : Place}
    (houtside : place.Outside) : (cache.goto process place).Locked := by
  have hleft : ((cache.release process).goto process place).Locked := h.leave houtside
  rwa [h.release_eq hbefore] at hleft

/-- A process stays inside its lock. -/
theorem Locked.stay (h : cache.Locked) {lock : String} {stage stage' : Stage} {next : Cache}
    (hbefore : cache.places process = .inside lock stage)
    (hplaces : next.places = Function.update cache.places process (.inside lock stage'))
    (hlocks : next.locks = cache.locks) (hlib : stage'.lib = stage.lib ∨ stage'.lib = none) : next.Locked := by
  constructor
  · intro lock' other
    rw [hlocks, h.held, hplaces]
    by_cases hsame : other = process
    · subst hsame
      simp [hbefore]
    · rw [Function.update_of_ne hsame]
  · intro other lock' stage'' lib hother hnames
    rw [hplaces] at hother
    by_cases hsame : other = process
    · subst hsame
      rw [Function.update_self] at hother
      cases hother
      rcases hlib with heq | hnone
      · exact h.named hbefore (heq ▸ hnames)
      · rw [hnone] at hnames
        cases hnames
    · rw [Function.update_of_ne hsame] at hother
      exact h.named hother hnames

/-- A process takes a lock that nobody holds. -/
theorem Locked.enter (h : cache.Locked) (hbefore : (cache.places process).Outside) {job : Job} {lock : String}
    (hjob : job.lock = .ok lock) (hfree : cache.locks lock = none) :
    Locked { cache.goto process (.inside lock job.stage) with
      locks := Function.update cache.locks lock (some process) } := by
  have hnone {lock' : String} {stage : Stage} : cache.places process ≠ .inside lock' stage := by
    intro heq
    rw [heq] at hbefore
    exact hbefore
  constructor
  · intro lock' other
    simp only [goto_places]
    by_cases hlock : lock' = lock
    · subst hlock
      rw [Function.update_self]
      by_cases hsame : other = process
      · subst hsame
        simp
      · rw [Function.update_of_ne hsame, ← h.held, hfree]
        simp [Ne.symm hsame]
    · rw [Function.update_of_ne hlock, h.held]
      by_cases hsame : other = process
      · subst hsame
        rw [Function.update_self]
        exact iff_of_false (fun hexists => hnone hexists.choose_spec)
          fun hexists => hlock (Place.inside.inj hexists.choose_spec).1.symm
      · rw [Function.update_of_ne hsame]
  · intro other lock' stage lib hother hnames
    simp only [goto_places] at hother
    by_cases hsame : other = process
    · subst hsame
      rw [Function.update_self] at hother
      cases hother
      cases job with
      | resolve resolution => cases hnames; exact hjob
      | forget projects lib => cases hnames; exact hjob
      | prune task => cases hnames; exact hjob
      | removeIfUnreferenced dirname => cases hnames; exact hjob
    · rw [Function.update_of_ne hsame] at hother
      exact h.named hother hnames

/-- Taking a lock keeps every lock with the process inside it. -/
theorem Locked.acquire (h : cache.Locked) {job : Job} (hbefore : cache.places process = .waiting job) :
    (cache.acquire process job).Locked := by
  have houtside : (cache.places process).Outside := by rw [hbefore]; trivial
  rw [Cache.acquire]
  split
  · exact h.goto houtside trivial
  · rename_i lock hlock
    split
    · exact h
    · rename_i hfree
      exact h.enter houtside hlock hfree

/-- Every step keeps every lock with the process inside it. -/
theorem Locked.step (h : cache.Locked) (label : CacheLabel) : (cache.step label).Locked := by
  cases label with
  | start process operation =>
    rw [Cache.step]
    split
    · rename_i hidle
      have houtside : (cache.places process).Outside := by rw [hidle]; trivial
      exact h.goto houtside (by cases operation <;> trivial)
    · exact h
  | stop process => exact h.leave trivial
  | change world => exact ⟨h.held, h.named⟩
  | next process =>
    rw [Cache.step]
    cases hplace : cache.places process with
    | idle => exact h
    | waiting job => exact h.acquire hplace
    | pruning dirnames manifestLibs =>
      have houtside : (cache.places process).Outside := by rw [hplace]; trivial
      cases dirnames with
      | nil =>
        have hgoto : (cache.goto process .idle).Locked := h.goto houtside trivial
        exact ⟨hgoto.held, hgoto.named⟩
      | cons dirname rest => exact h.goto houtside trivial
    | inside lock stage =>
      rcases advance_cases cache process lock stage with ⟨stage', hplaces, hlocks, hlib⟩ | ⟨place, houtside, heq⟩
      · exact h.stay hplace hplaces hlocks hlib
      · rw [Cache.next, heq]
        exact h.leave houtside

end Locks

section Outer

variable {cache : Cache} {process : ℕ}

/-- What a step outside the locks can do: the disk stays, rows of projects that are gone may go, and whoever is
inside a lock after it was there before or has just taken it. -/
structure Outer (cache next : Cache) : Prop where
  disk : next.disk = cache.disk
  rows : ∀ row ∈ next.registry.rows, row ∈ cache.registry.rows
  kept : ∀ row ∈ cache.registry.rows, cache.world.isThere row.project = true → row ∈ next.registry.rows
  inside : ∀ {process lock stage}, next.places process = .inside lock stage →
    cache.places process = .inside lock stage ∨ ∃ job : Job, job.stage = stage

/-- A step that leaves the disk, the registry and the places alone. -/
theorem Outer.of_eq {next : Cache} (hdisk : next.disk = cache.disk) (hregistry : next.registry = cache.registry)
    (hplaces : next.places = cache.places) : Outer cache next where
  disk := hdisk
  rows := fun _ hrow => hregistry ▸ hrow
  kept := fun _ hrow _ => hregistry ▸ hrow
  inside := fun hplace => Or.inl (hplaces ▸ hplace)

/-- A process that goes on outside is not inside. -/
theorem inside_of_update {place : Place} (houtside : place.Outside) {other : ℕ} {lock : String} {stage : Stage}
    (h : Function.update cache.places process place other = .inside lock stage) :
    cache.places other = .inside lock stage := by
  by_cases hsame : other = process
  · rw [hsame, Function.update_self] at h
    rw [h] at houtside
    exact houtside.elim
  · rwa [Function.update_of_ne hsame] at h

/-- A process goes on outside. -/
theorem Outer.goto {place : Place} (houtside : place.Outside) : Outer cache (cache.goto process place) where
  disk := rfl
  rows := fun _ => id
  kept := fun _ hrow _ => hrow
  inside := fun hplace => Or.inl (inside_of_update houtside hplace)

/-- A process takes its lock, waits on, or has none to take. -/
theorem Outer.acquire (job : Job) : Outer cache (cache.acquire process job) := by
  rw [Cache.acquire]
  split
  · exact Outer.goto trivial
  · rename_i lock _
    split
    · exact Outer.of_eq rfl rfl rfl
    · refine ⟨rfl, fun _ => id, fun _ hrow _ => hrow, fun {other lock' stage} hplace => ?_⟩
      rw [goto_places] at hplace
      by_cases hsame : other = process
      · rw [hsame, Function.update_self] at hplace
        exact Or.inr ⟨job, (Place.inside.inj hplace).2⟩
      · rw [Function.update_of_ne hsame] at hplace
        exact Or.inl hplace

/-- A step is one inside a lock or one outside them all. -/
theorem step_cases (cache : Cache) (label : CacheLabel) :
    (∃ process lock stage, label = .next process ∧ cache.places process = .inside lock stage ∧
      cache.step label = cache.advance process lock stage) ∨ Outer cache (cache.step label) := by
  cases label with
  | change world => exact Or.inr (Outer.of_eq rfl rfl rfl)
  | stop process =>
    exact Or.inr ⟨rfl, fun _ => id, fun _ hrow _ => hrow,
      fun hplace => Or.inl (@inside_of_update _ _ .idle trivial _ _ _ hplace)⟩
  | start process operation =>
    refine Or.inr ?_
    rw [step]
    split
    · exact Outer.goto (by cases operation <;> trivial)
    · exact Outer.of_eq rfl rfl rfl
  | next process =>
    rw [step]
    cases hplace : cache.places process with
    | idle => exact Or.inr (Outer.of_eq rfl rfl rfl)
    | waiting job => exact Or.inr (Outer.acquire job)
    | inside lock stage => exact Or.inl ⟨process, lock, stage, rfl, hplace, rfl⟩
    | pruning dirnames manifestLibs =>
      refine Or.inr ?_
      cases dirnames with
      | cons dirname rest => exact Outer.goto trivial
      | nil =>
        exact ⟨rfl, fun _ hrow => (List.mem_filter.mp hrow).1, fun _ hrow hthere => List.mem_filter.mpr ⟨hrow, hthere⟩,
          fun hother => Or.inl (@inside_of_update _ _ .idle trivial _ _ _ hother)⟩

end Outer

section Knowledge

variable {cache : Cache} {process : ℕ} {lock lock' : String} {stage stage' : Stage}

/-- The stage a process has just gone to. -/
theorem stage_of_update {places : ℕ → Place}
    (h : Function.update places process (.inside lock stage) process = .inside lock' stage') : stage' = stage := by
  rw [Function.update_self] at h
  exact (Place.inside.inj h).2.symm

/-- A process that has just let its lock go is not inside. -/
theorem not_inside_of_update {places : ℕ → Place} {place : Place} (houtside : place.Outside) :
    Function.update places process place process ≠ .inside lock stage := by
  rw [Function.update_self]
  intro heq
  rw [heq] at houtside
  exact houtside

/-- What a process knows under its lock after its own step. -/
theorem advance_sound (h : stage.Sound cache.disk)
    (hnext : (cache.advance process lock stage).places process = .inside lock' stage') :
    stage'.Sound (cache.advance process lock stage).disk := by
  cases stage with
  | clone => exact stage_of_update hnext ▸ trivial
  | materialize resolution =>
    rw [advance] at hnext ⊢
    split at hnext
    · exact absurd hnext (not_inside_of_update trivial)
    · rw [stage_of_update hnext]
      exact Disk.mem_add.mpr (Or.inr ⟨rfl, rfl⟩)
  | record => exact stage_of_update hnext ▸ trivial
  | forget => exact stage_of_update hnext ▸ trivial
  | snapshot task =>
    rw [stage_of_update hnext]
    exact fun row hrow => beq_iff_eq.mp (List.mem_filter.mp hrow).2
  | list task seen => exact stage_of_update hnext ▸ h
  | judge task seen worktrees keep unseen =>
    cases unseen with
    | nil => exact stage_of_update hnext ▸ ⟨h, fun _ => fst_of_mem_delete⟩
    | cons row unseen =>
      rw [advance] at hnext
      split at hnext
      · exact stage_of_update hnext ▸ h
      · exact stage_of_update hnext ▸ h
  | weigh task seen worktrees keep unseen row reading =>
    cases reading with
    | there => exact stage_of_update hnext ▸ h
    | manifest => exact stage_of_update hnext ▸ h
  | remove task seen plan delete =>
    cases delete with
    | nil => exact stage_of_update hnext ▸ h.1
    | cons pair delete =>
      exact stage_of_update hnext ▸ ⟨h.1, fun pair hpair => h.2 pair (List.mem_cons_of_mem _ hpair)⟩
  | reconcile => exact stage_of_update hnext ▸ trivial
  | checkRows dirname =>
    rw [advance] at hnext
    split at hnext <;> exact stage_of_update hnext ▸ trivial
  | deleteAll dirname =>
    rw [advance] at hnext
    split at hnext <;> (rw [stage_of_update hnext]; trivial)
  | unlock pruning => cases pruning <;> exact absurd hnext (not_inside_of_update trivial)

/-- A step inside a lock leaves the projects. -/
theorem advance_world (cache : Cache) (process : ℕ) (lock : String) (stage : Stage) :
    (cache.advance process lock stage).world = cache.world := by
  unfold advance
  split <;> first
    | rfl
    | (split <;> rfl)

/-- A step that is no change of the projects leaves them. -/
theorem step_world {label : CacheLabel} (h : ∀ world, label ≠ .change world) :
    (cache.step label).world = cache.world := by
  cases label with
  | change world => exact absurd rfl (h world)
  | stop process => rfl
  | start process operation =>
    rw [step]
    split <;> rfl
  | next process =>
    rw [step]
    cases cache.places process with
    | idle => rfl
    | waiting job =>
      rw [next, acquire]
      split
      · rfl
      · split <;> rfl
    | inside lock stage => exact advance_world cache process lock stage
    | pruning dirnames manifestLibs => cases dirnames <;> rfl

/-- What a prune has just read it has read as it is. -/
theorem advance_fresh {key : String × String}
    (hnext : (cache.advance process lock stage).places process = .inside lock' stage') :
    stage'.Fresh cache.world key := by
  cases stage with
  | weigh task seen worktrees keep unseen row reading =>
    cases reading with
    | there =>
      obtain rfl := stage_of_update hnext
      intro hkey
      rw [← (Data.key_eq_iff.mp hkey).1]
    | manifest => exact stage_of_update hnext ▸ trivial
  | judge task seen worktrees keep unseen =>
    cases unseen with
    | nil => exact stage_of_update hnext ▸ trivial
    | cons row unseen =>
      rw [advance] at hnext
      split at hnext
      · exact stage_of_update hnext ▸ trivial
      · exact stage_of_update hnext ▸ trivial
  | remove task seen plan delete => cases delete <;> exact stage_of_update hnext ▸ trivial
  | materialize resolution =>
    rw [advance] at hnext
    split at hnext
    · exact absurd hnext (not_inside_of_update trivial)
    · exact stage_of_update hnext ▸ trivial
  | checkRows dirname =>
    rw [advance] at hnext
    split at hnext
    · exact stage_of_update hnext ▸ trivial
    · exact stage_of_update hnext ▸ trivial
  | deleteAll dirname =>
    rw [advance] at hnext
    split at hnext
    · exact stage_of_update hnext ▸ trivial
    · exact stage_of_update hnext ▸ trivial
  | unlock pruning => cases pruning <;> exact absurd hnext (not_inside_of_update trivial)
  | clone | record | forget | snapshot | list | reconcile => exact stage_of_update hnext ▸ trivial

/-- A process does not decide against a row of a project that wants its library. -/
theorem advance_spares {row : RefRow} (hrow : row ∈ (cache.advance process lock stage).registry.rows)
    (hwants : cache.world.wants row.project row.lib = true)
    (hfresh : stage.lib = some row.lib → stage.Fresh cache.world row.key)
    (h : row ∈ cache.registry.rows → stage.lib = some row.lib → stage.Spares row)
    (hnext : (cache.advance process lock stage).places process = .inside lock' stage')
    (hlib : stage'.lib = some row.lib) : stage'.Spares row := by
  cases stage with
  | clone => exact stage_of_update hnext ▸ trivial
  | materialize resolution =>
    rw [advance] at hnext
    split at hnext
    · exact absurd hnext (not_inside_of_update trivial)
    · exact stage_of_update hnext ▸ trivial
  | record => exact stage_of_update hnext ▸ trivial
  | forget => exact stage_of_update hnext ▸ trivial
  | snapshot task =>
    obtain rfl := stage_of_update hnext
    exact List.mem_filter.mpr ⟨hrow, beq_iff_eq.mpr (Option.some.inj hlib).symm⟩
  | list task seen =>
    obtain rfl := stage_of_update hnext
    exact ⟨h hrow hlib, Or.inr (h hrow hlib)⟩
  | judge task seen worktrees keep unseen =>
    cases unseen with
    | nil =>
      obtain rfl := stage_of_update hnext
      have hkeep := (h hrow hlib).2.resolve_right List.not_mem_nil
      exact ⟨hkeep, not_mem_delete hkeep⟩
    | cons first unseen =>
      have hthere : cache.world.isThere row.project = true := (Bool.and_eq_true_iff.mp hwants).1
      rw [advance] at hnext hrow
      split at hnext
      next hfirst =>
        rw [if_pos hfirst] at hrow
        obtain rfl := stage_of_update hnext
        exact h hrow hlib
      next hgone =>
        rw [if_neg hgone] at hrow
        obtain rfl := stage_of_update hnext
        obtain ⟨hseen, hkept⟩ := h hrow hlib
        refine ⟨hseen, hkept.imp_right fun hin => List.mem_of_ne_of_mem (fun hfirst => ?_) hin⟩
        exact hgone (hfirst ▸ hthere)
  | weigh task seen worktrees keep unseen weighed reading =>
    cases reading with
    | there =>
      obtain rfl := stage_of_update hnext
      exact h hrow hlib
    | manifest libs =>
      obtain rfl := stage_of_update hnext
      obtain ⟨hseen, hkept⟩ := h hrow hlib
      refine ⟨hseen, ?_⟩
      rcases hkept with hkeep | hunseen
      · left
        split
        · exact List.mem_append_left _ hkeep
        · exact hkeep
      · rcases List.mem_cons.mp hunseen with rfl | hrest
        · rw [hfresh hlib rfl, RefRow.key, if_pos (selects_of_wants hseen hwants)]
          exact Or.inl (List.mem_append_right _ (List.mem_singleton_self _))
        · exact Or.inr hrest
  | remove task seen plan delete =>
    cases delete with
    | nil =>
      obtain rfl := stage_of_update hnext
      exact (h hrow hlib).1
    | cons pair delete =>
      obtain rfl := stage_of_update hnext
      exact ⟨(h hrow hlib).1, fun hmem => (h hrow hlib).2 (List.mem_cons_of_mem _ hmem)⟩
  | reconcile => exact stage_of_update hnext ▸ trivial
  | checkRows dirname =>
    rw [advance] at hnext hrow
    split at hnext
    · exact stage_of_update hnext ▸ trivial
    · rename_i hnone
      rw [if_neg hnone] at hrow
      obtain rfl := stage_of_update hnext
      exact hnone (List.any_eq_true.mpr ⟨row, hrow, beq_iff_eq.mpr (Option.some.inj hlib).symm⟩)
  | deleteAll dirname =>
    have hbefore : row ∈ cache.registry.rows := by
      rw [advance] at hrow
      split at hrow <;> exact hrow
    rw [advance] at hnext
    split at hnext
    · exact stage_of_update hnext ▸ trivial
    · obtain rfl := stage_of_update hnext
      exact h hbefore hlib
  | unlock pruning => cases pruning <;> exact absurd hnext (not_inside_of_update trivial)

end Knowledge

section Invariants

/-- Every process inside a lock holds it alone and knows what it has seen. -/
structure Known (cache : Cache) : Prop where
  locked : cache.Locked
  sound : ∀ {process lock stage}, cache.places process = .inside lock stage → stage.Sound cache.disk

/-- What another process knows under its lock no step changes. -/
theorem Known.sound_advance {cache : Cache} (h : cache.Known) {process other : ℕ} {lock lock' : String}
    {stage stage' : Stage} (hplace : cache.places process = .inside lock stage)
    (hother : cache.places other = .inside lock' stage') (hne : other ≠ process) :
    stage'.Sound (cache.advance process lock stage).disk := by
  have hsound := h.sound hother
  cases stage' with
  | record resolution worktree =>
    rcases advance_entries cache process lock stage hsound with hstays | hlib
    · exact hstays
    · rw [decode_encode_of_lockPath (h.locked.named hother rfl)] at hlib
      exact absurd (h.locked.alone hplace hother hlib rfl) hne
  | clone => trivial
  | materialize => trivial
  | forget => trivial
  | snapshot => trivial
  | list => exact hsound
  | judge => exact hsound
  | weigh => exact hsound
  | remove => exact hsound
  | reconcile => exact hsound
  | checkRows => trivial
  | deleteAll => trivial
  | unlock => trivial

/-- Every step keeps what the processes know. -/
theorem Known.step {cache : Cache} (h : cache.Known) (label : CacheLabel) : (cache.step label).Known := by
  refine ⟨h.locked.step label, fun {other lock' stage'} hother => ?_⟩
  rcases step_cases cache label with ⟨process, lock, stage, _, hplace, hstep⟩ | houter
  · rw [hstep] at hother ⊢
    by_cases hsame : other = process
    · subst hsame
      exact advance_sound (h.sound hplace) hother
    · rw [advance_others cache process lock stage hsame] at hother
      exact h.sound_advance hplace hother hsame
  · rw [houter.disk]
    rcases houter.inside hother with hbefore | ⟨job, rfl⟩
    · exact h.sound hbefore
    · cases job <;> trivial

/-- Whoever works on the library has spared every row of the key so far. -/
def Spared (key : String × String) (cache : Cache) : Prop :=
  ∀ process lock stage, cache.places process = .inside lock stage → stage.lib = some key.2 →
    ∀ row ∈ cache.registry.rows, row.key = key → stage.Spares row

/-- Whoever works on the library and has read manifests for a row of the key has read those that its project has. -/
def Fresh (key : String × String) (cache : Cache) : Prop :=
  ∀ process lock stage, cache.places process = .inside lock stage → stage.lib = some key.2 →
    stage.Fresh cache.world key

/-- The key has a row with an identity, and its checkout is there. -/
def Present (key : String × String) (cache : Cache) : Prop :=
  ∃ row ∈ cache.registry.rows, row.key = key ∧ row.commit.isEmpty = false ∧
    row.version ∈ cache.disk.entries (encode key.2)

/-- What a prune has read of a project stays as it is, unless the project changes meanwhile. -/
theorem Fresh.step {key : String × String} {cache : Cache} (h : cache.Fresh key) {label : CacheLabel}
    (hundisturbed : ¬ cache.Disturbs key label) : (cache.step label).Fresh key := by
  intro other lock' stage' hother hlib
  rcases step_cases cache label with ⟨process, lock, stage, hlabel, hplace, hstep⟩ | houter
  · rw [hstep] at hother ⊢
    rw [advance_world]
    by_cases hsame : other = process
    · subst hsame
      exact advance_fresh hother
    · rw [advance_others cache process lock stage hsame] at hother
      exact h _ _ _ hother hlib
  · rcases houter.inside hother with hbefore | ⟨job, rfl⟩
    · have hfresh := h _ _ _ hbefore hlib
      cases stage' with
      | weigh task seen worktrees keep unseen row reading =>
        cases reading with
        | there => trivial
        | manifest libs =>
          intro hkey
          have hread : (cache.step label).world.discover key.1 = cache.world.discover key.1 := by
            cases label with
            | change world =>
              by_contra hchanged
              exact hundisturbed ⟨Or.inl hchanged, _, _, _, _, _, _, _, _, _, hbefore, hkey⟩
            | start | next | stop =>
              exact congrArg (fun world : World => world.discover key.1) (step_world fun _ => nofun)
          exact (hfresh hkey).trans hread.symm
      | clone | materialize | record | forget | snapshot | list | judge | remove | reconcile | checkRows | deleteAll
        | unlock => trivial
    · cases job <;> trivial

/-- While a project wants its library, every step spares the rows of the two. -/
theorem Spared.step {key : String × String} {cache : Cache} (h : cache.Spared key) (hlocked : cache.Locked)
    (hfresh : cache.Fresh key) (hwants : cache.world.wants key.1 key.2 = true) (label : CacheLabel) : (cache.step label).Spared key := by
  intro other lock' stage' hother hlib row hrow hkey
  obtain ⟨hproject, hlibrary⟩ := Data.key_eq_iff.mp hkey
  rcases step_cases cache label with ⟨process, lock, stage, _, hplace, hstep⟩ | houter
  · rw [hstep] at hother hrow
    by_cases hsame : other = process
    · subst hsame
      refine advance_spares hrow (hproject ▸ hlibrary ▸ hwants) (fun hworks => hkey ▸ hfresh _ _ _ hplace (hlibrary ▸ hworks)) (fun hbefore hworks => ?_)
        hother (hlibrary ▸ hlib)
      exact h _ _ _ hplace (hlibrary ▸ hworks) row hbefore hkey
    · rw [advance_others cache process lock stage hsame] at hother
      rcases advance_rows cache process lock stage hrow with hbefore | hadds
      · exact h _ _ _ hother hlib row hbefore hkey
      · rw [hlibrary] at hadds
        exact absurd (hlocked.alone hplace hother hadds hlib) hsame
  · rcases houter.inside hother with hbefore | ⟨job, rfl⟩
    · exact h _ _ _ hbefore hlib row (houter.rows row hrow) hkey
    · cases job <;> trivial

/-- A step inside a lock leaves the key its row and checkout, unless it forgets the row. -/
theorem Present.advance {key : String × String} {cache : Cache} {process : ℕ} {lock : String} {stage : Stage}
    (h : cache.Present key) (hname : decode (encode key.2) = key.2) (hsound : stage.Sound cache.disk)
    (hspared : stage.lib = some key.2 → ∀ row ∈ cache.registry.rows, row.key = key → stage.Spares row)
    (hforgets : ∀ projects, stage = .forget projects key.2 →
      (projects.any fun project => components (bytes key.1) == components project) = false) :
    (cache.advance process lock stage).Present key := by
  obtain ⟨row, hrow, hkey, hcommit, hdisk⟩ := h
  obtain ⟨hproject, hlibrary⟩ := Data.key_eq_iff.mp hkey
  cases stage with
  | clone => exact ⟨row, hrow, hkey, hcommit, Disk.mem_add.mpr (Or.inl hdisk)⟩
  | materialize resolution =>
    rw [Cache.advance]
    split
    · exact ⟨row, hrow, hkey, hcommit, hdisk⟩
    · exact ⟨row, hrow, hkey, hcommit, Disk.mem_add.mpr (Or.inl hdisk)⟩
  | record resolution worktree =>
    by_cases hsame : key = (resolution.workspace, resolution.lib)
    · subst hsame
      obtain ⟨new, hnew, hnewkey, hversion, hidentity⟩ := exists_mem_upsert cache.registry.rows
        (resolution.workspace, resolution.lib) (resolution.checkout worktree)
      have hfound : new.commit.isEmpty = false := hidentity ▸ resolution.found
      exact ⟨new, Data.mem_retireLegacy hnew hfound, hnewkey, hfound, hversion ▸ hsound⟩
    · have hstays : row ∈ upsert resolution.workspace resolution.lib (resolution.checkout worktree)
          cache.registry.rows := (mem_upsert_of_ne (hkey ▸ hsame)).mpr hrow
      exact ⟨row, Data.mem_retireLegacy hstays hcommit, hkey, hcommit, hdisk⟩
  | forget projects lib =>
    refine ⟨row, List.mem_filter.mpr ⟨hrow, ?_⟩, hkey, hcommit, hdisk⟩
    rw [Bool.not_eq_true', Data.mine, hproject, hlibrary]
    by_cases hlib : lib = key.2
    · rw [hforgets projects (congrArg _ hlib), Bool.and_false]
    · rw [beq_eq_false_iff_ne.mpr (Ne.symm hlib), Bool.false_and]
  | reconcile task seen plan =>
    refine ⟨row, Data.mem_reconcile hrow ?_, hkey, hcommit, hdisk⟩
    rintro ⟨old, hold, hlib⟩
    exact hspared (congrArg some ((hsound old hold).symm.trans (hlib.trans hlibrary))) row hrow hkey
  | remove task seen plan delete =>
    cases delete with
    | nil => exact ⟨row, hrow, hkey, hcommit, hdisk⟩
    | cons pair delete =>
      refine ⟨row, hrow, hkey, hcommit, Disk.mem_remove.mpr ⟨hdisk, ?_⟩⟩
      rintro ⟨hdir, hversion⟩
      have hworks : decode task.dirname = key.2 := hdir ▸ hname
      have hpair : pair.1 = row.lib := (hsound.2 pair List.mem_cons_self).trans (hworks.trans hlibrary.symm)
      refine (hspared (congrArg some hworks) row hrow hkey).2 ?_
      rw [← hpair, hversion]
      exact List.mem_cons_self
  | deleteAll dirname =>
    have hother : encode key.2 ≠ dirname := by
      intro hdir
      exact hspared (congrArg some (hdir ▸ hname)) row hrow hkey
    rw [Cache.advance]
    split
    · exact ⟨row, hrow, hkey, hcommit, Disk.mem_erase.mpr ⟨hdisk, hother⟩⟩
    · exact ⟨row, hrow, hkey, hcommit, Disk.mem_remove.mpr ⟨hdisk, fun hboth => hother hboth.1⟩⟩
  | snapshot => exact ⟨row, hrow, hkey, hcommit, hdisk⟩
  | list => exact ⟨row, hrow, hkey, hcommit, hdisk⟩
  | judge task seen worktrees keep unseen =>
    obtain ⟨place, heq⟩ := advance_judge cache process lock task seen worktrees keep unseen
    rw [heq]
    exact ⟨row, hrow, hkey, hcommit, hdisk⟩
  | weigh task seen worktrees keep unseen weighed reading =>
    cases reading with
    | there => exact ⟨row, hrow, hkey, hcommit, hdisk⟩
    | manifest => exact ⟨row, hrow, hkey, hcommit, hdisk⟩
  | checkRows dirname =>
    rw [Cache.advance]
    split <;> exact ⟨row, hrow, hkey, hcommit, hdisk⟩
  | unlock pruning => cases pruning <;> exact ⟨row, hrow, hkey, hcommit, hdisk⟩

/-- While a project wants its library and nobody forgets it there, a step leaves the row and the checkout. -/
theorem Present.step {key : String × String} {cache : Cache} (h : cache.Present key) (hknown : cache.Known)
    (hspared : cache.Spared key) (hname : decode (encode key.2) = key.2) {label : CacheLabel}
    (hwants : cache.world.wants key.1 key.2 = true) (hforgets : cache.forgets key label = false) :
    (cache.step label).Present key := by
  rcases step_cases cache label with ⟨process, lock, stage, hlabel, hplace, hstep⟩ | houter
  · rw [hstep]
    refine h.advance hname (hknown.sound hplace) (hspared _ _ _ hplace) fun projects hstage => ?_
    rw [hlabel, forgets, hplace, hstage] at hforgets
    simpa using hforgets
  · obtain ⟨row, hrow, hkey, hcommit, hdisk⟩ := h
    have hthere : cache.world.isThere row.project = true := by
      rw [(Data.key_eq_iff.mp hkey).1]
      exact (Bool.and_eq_true_iff.mp hwants).1
    exact ⟨row, houter.kept row hrow hthere, hkey, hcommit, houter.disk ▸ hdisk⟩

/-- A cache in which nobody does anything is one where everybody knows what they have seen. -/
theorem Idle.known {cache : Cache} (h : cache.Idle) : cache.Known where
  locked :=
    { held := fun lock process => by
        rw [h.1 process, h.2 lock]
        exact iff_of_false (Option.some_ne_none process).symm fun hplace => Place.noConfusion hplace.choose_spec
      named := fun hplace => by
        rw [h.1] at hplace
        exact Place.noConfusion hplace }
  sound := fun hplace => by
    rw [h.1] at hplace
    exact Place.noConfusion hplace

/-- When a resolve has recorded its row, nobody else works on the library, and the checkout is there. -/
theorem Known.recorded {cache : Cache} (h : cache.Known) {process : ℕ} {lock worktree : String}
    {resolution : Resolution} (hplace : cache.places process = .inside lock (.record resolution worktree)) :
    (cache.step (.next process)).Fresh (resolution.workspace, resolution.lib) ∧
      (cache.step (.next process)).Spared (resolution.workspace, resolution.lib) ∧
      (cache.step (.next process)).Present (resolution.workspace, resolution.lib) := by
  have hstep : cache.step (.next process) = cache.advance process lock (.record resolution worktree) := by
    rw [Cache.step, hplace]
    rfl
  rw [hstep]
  have halone : ∀ other lock' stage', (cache.advance process lock (.record resolution worktree)).places other =
      .inside lock' stage' → stage'.lib ≠ some resolution.lib := by
    intro other lock' stage' hother hlib
    by_cases hsame : other = process
    · subst hsame
      rw [stage_of_update hother] at hlib
      cases hlib
    · rw [advance_others cache process lock _ hsame] at hother
      exact absurd (h.locked.alone hplace hother rfl hlib) hsame
  refine ⟨fun other lock' stage' hother hlib => absurd hlib (halone other lock' stage' hother),
    fun other lock' stage' hother hlib => absurd hlib (halone other lock' stage' hother), ?_⟩
  obtain ⟨new, hnew, hkey, hversion, hidentity⟩ := exists_mem_upsert cache.registry.rows
    (resolution.workspace, resolution.lib) (resolution.checkout worktree)
  have hfound : new.commit.isEmpty = false := hidentity ▸ resolution.found
  exact ⟨new, Data.mem_retireLegacy hnew hfound, hkey, hfound, hversion ▸ h.sound hplace⟩

end Invariants

end Cache

section Example

/-- A project that pins the library everywhere. -/
def pinnedWorld : World where
  isThere _ := true
  discover _ := some [⟨"a/b", none, none, some "v1"⟩]
  findVersion _ _ _ := none

/-- An empty cache beside that project. -/
def emptyCache : Cache := ⟨"/c", ⟨[]⟩, ∅, fun _ => none, fun _ => .idle, pinnedWorld⟩

/-- What the project's resolve selects. -/
def pinnedResolution : Resolution := ⟨"a/b", "/w", "v1", "aaa", 42, rfl⟩

/-- The resolve up to its record. -/
def resolveSteps : List CacheLabel :=
  .start 0 (.resolve pinnedResolution) :: List.replicate 3 (.next 0)

/-- The resolve lets its lock go, and another process prunes the cache. -/
def pruneSteps : List CacheLabel := .next 0 :: .start 1 (.prune []) :: List.replicate 12 (.next 1)

/-- The step is a change of a project. -/
def CacheLabel.isChange : CacheLabel → Bool
  | change _ => true
  | _ => false

end Example

end Devkit.Docs
