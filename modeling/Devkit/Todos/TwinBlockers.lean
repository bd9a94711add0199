import Devkit.Todos.TwinEdits

/-!
# Blockers on both stores

The built-in store keeps blockers as texts, the other as dependencies on uuids. Blockers that are ids
or uuids are added and taken away alike; a text that is read as no uuid is taken away from neither.
-/

namespace Devkit.Todos

open Devkit.Library
open Std

/-- What a change of blockers makes of those before. -/
def ChangesBlockers (add : Bool) (blockers : List String) (change : List String → List String) : Prop :=
  ∀ before blocker, blocker ∈ change before ↔
    if add then blocker ∈ before ∨ blocker ∈ blockers else blocker ∈ before ∧ blocker ∉ blockers

/-- A block adds its blockers. -/
theorem changesBlockers_block (blockers : List String) : ChangesBlockers true blockers (· ++ blockers) := by
  intro before blocker
  rw [if_pos rfl, List.mem_append]

/-- An unblock takes its blockers away. -/
theorem changesBlockers_unblock (blockers : List String) :
    ChangesBlockers false blockers fun before => before.filter fun blocker => !blockers.contains blocker := by
  intro before blocker
  rw [if_neg Bool.false_ne_true, List.mem_filter, Bool.not_eq_true', ← Bool.not_eq_true, List.contains_iff_mem]

/-- A blocker of a call is an id or a uuid, unless it is taken away and is read as no uuid. -/
def NamesBlocker (lib : TaskLibraries) (made : ExtTreeMap String String) (add : Bool) (blocker : String) : Prop :=
  (blocker ∈ made ∨ Unreturned made blocker) ∨ (add = false ∧ blocker ∉ made ∧ lib.tryParse blocker = none)

section Blockers

variable {lib : TaskLibraries} {s : Twins} {id : String} {key : ℕ} {todo : Todo} {uuid : Uuid}
  {task : Properties} {twin : Todo}

/-- The uuids the blockers of a call are read as are those the ids and uuids among them are translated to. -/
theorem mem_parsed {made : ExtTreeMap String String} {bound : ℕ} (hnames : OneToOne made bound) {add : Bool}
    {blockers : List String} (hnamed : ∀ blocker ∈ blockers, NamesBlocker lib made add blocker) {on : Uuid} :
    on ∈ (blockers.map (translate made)).filterMap lib.tryParse ↔
      ∃ named ∈ blockers, (named ∈ made ∨ Unreturned made named) ∧ translate made named = on.text := by
  simp only [List.mem_filterMap, List.mem_map]
  constructor
  · rintro ⟨_, ⟨named, hnamed', rfl⟩, hparse⟩
    refine ⟨named, hnamed', ?_⟩
    cases hnamed named hnamed' with
    | inl hknown =>
      obtain ⟨other, hother⟩ := hnames.translate_eq_text hknown
      rw [hother, lib.tryParse_text] at hparse
      exact ⟨hknown, Option.some.inj hparse ▸ hother⟩
    | inr hunread =>
      rw [translate_of_not_mem hunread.2.1, hunread.2.2] at hparse
      contradiction
  · rintro ⟨named, hnamed', _, htext⟩
    exact ⟨on.text, ⟨named, hnamed', htext⟩, lib.tryParse_text on⟩

/-- The dependencies a call writes are those it asks for that are not as asked, so all of them are after it. -/
theorem mem_readBlockers_written (now : Instant) (hcanonical : Canonical task) (add : Bool) (uuids : List Uuid)
    (blocker : String) :
    blocker ∈ readBlockers lib ((uuids.filter fun on => (readBlockers lib task).contains on.text != add).foldl
        (setDependency now add) (Writer.new task)).task ↔
      if add then blocker ∈ readBlockers lib task ∨ blocker ∈ uuids.map Uuid.text
      else blocker ∈ readBlockers lib task ∧ blocker ∉ uuids.map Uuid.text := by
  have hset : blocker ∈ (uuids.filter fun on => (readBlockers lib task).contains on.text != add).map Uuid.text ↔
      blocker ∈ uuids.map Uuid.text ∧ ¬ (blocker ∈ readBlockers lib task ↔ add = true) := by
    have hfree : ∀ on : Uuid, ((readBlockers lib task).contains on.text != add) = true ↔
        ¬ (on.text ∈ readBlockers lib task ↔ add = true) := by
      intro on
      rw [bne_iff_ne, ne_eq, Bool.eq_iff_iff, List.contains_iff_mem]
    simp only [List.mem_map, List.mem_filter, hfree]
    constructor
    · rintro ⟨on, ⟨hon, hfree⟩, rfl⟩
      exact ⟨⟨on, hon, rfl⟩, hfree⟩
    · rintro ⟨⟨on, hon, rfl⟩, hfree⟩
      exact ⟨on, ⟨hon, hfree⟩, rfl⟩
  refine ((mem_readBlockers_foldl lib now add _ hcanonical blocker).2).trans ?_
  split
  · rename_i hin
    obtain ⟨hasked, hchanged⟩ := hset.mp hin
    cases add with
    | true => exact ⟨fun _ => Or.inr hasked, fun _ => rfl⟩
    | false => exact ⟨nofun, fun hkept => absurd hasked hkept.2⟩
  · rename_i hout
    have hkept : blocker ∈ uuids.map Uuid.text → (blocker ∈ readBlockers lib task ↔ add = true) := fun hasked =>
      not_not.mp fun hchanged => hout (hset.mpr ⟨hasked, hchanged⟩)
    cases add with
    | true => exact ⟨Or.inl, fun h => h.elim id fun hasked => (hkept hasked).mpr rfl⟩
    | false => exact ⟨fun hhas => ⟨hhas, fun hasked => Bool.noConfusion ((hkept hasked).mp hhas)⟩, And.left⟩

/-- The uuids of a call are asked for by what they print. -/
theorem mem_asked {made : ExtTreeMap String String} {bound : ℕ} (hnames : OneToOne made bound) {add : Bool}
    {blockers : List String} (hnamed : ∀ blocker ∈ blockers, NamesBlocker lib made add blocker) {text : String} :
    text ∈ ((blockers.map (translate made)).filterMap lib.tryParse).map Uuid.text ↔
      ∃ named ∈ blockers, (named ∈ made ∨ Unreturned made named) ∧ translate made named = text := by
  simp only [List.mem_map (f := Uuid.text), mem_parsed hnames hnamed]
  constructor
  · rintro ⟨on, hon, rfl⟩
    exact hon
  · rintro ⟨named, hmem, hknown, rfl⟩
    obtain ⟨on, hon⟩ := hnames.translate_eq_text hknown
    exact ⟨on, ⟨named, hmem, hknown, hon⟩, hon.symm⟩

/-- The twin's blockers after the change are the todo's, translated. -/
theorem Found.blockers_after (hfound : Found lib s id key todo uuid task twin) (h : Simulates lib s) {add : Bool}
    {blockers : List String} {change : List String → List String} (hchange : ChangesBlockers add blockers change)
    (hnamed : ∀ blocker ∈ blockers, NamesBlocker lib s.made add blocker) (now : Instant) (blocker : String) :
    blocker ∈ readBlockers lib ((((blockers.map (translate s.made)).filterMap lib.tryParse).filter fun on =>
        twin.blockedBy.contains on.text != add).foldl (setDependency now add) (Writer.new task)).task ↔
      ∃ named ∈ dedup ((change todo.blockedBy).insertionSort (· ≤ ·)), translate s.made named = blocker := by
  have hbefore : blocker ∈ twin.blockedBy ↔ ∃ named ∈ todo.blockedBy, translate s.made named = blocker :=
    hfound.twins.blockedBy blocker
  rw [hfound.read.blockedBy, mem_readBlockers_written now hfound.read.canonical, ← hfound.read.blockedBy, hbefore,
    mem_asked h.names hnamed]
  simp only [mem_dedup, List.mem_insertionSort, hchange todo.blockedBy]
  cases add with
  | true =>
    have hall : (∃ named ∈ blockers, (named ∈ s.made ∨ Unreturned s.made named) ∧ translate s.made named = blocker) ↔
        ∃ named ∈ blockers, translate s.made named = blocker :=
      exists_congr fun named => and_congr_right fun hmem =>
        and_iff_right ((hnamed named hmem).resolve_right fun hunread => Bool.noConfusion hunread.1)
    rw [if_pos rfl, hall]
    simp only [if_true, or_and_right, exists_or]
  | false =>
    simp only [Bool.false_eq_true, if_false]
    constructor
    · rintro ⟨⟨named, hhas, htext⟩, hfree⟩
      exact ⟨named, ⟨hhas, fun hmem => hfree ⟨named, hmem, hfound.blockers h named hhas, htext⟩⟩, htext⟩
    · rintro ⟨named, ⟨hhas, hkept⟩, htext⟩
      refine ⟨⟨named, hhas, htext⟩, ?_⟩
      rintro ⟨other, hother, hknown, hsame⟩
      have heq := (h.names.translate_inj hknown (hfound.blockers h named hhas)).mp (hsame.trans htext.symm)
      exact hkept (heq ▸ hother)

/-- Blockers change alike. -/
theorem alike_setBlockers (h : Simulates lib s) (now : Instant) (hmeant : s.Meant lib id) {add : Bool}
    {blockers : List String} {change : List String → List String} (hchange : ChangesBlockers add blockers change)
    (hnamed : ∀ blocker ∈ blockers, NamesBlocker lib s.made add blocker) :
    Alike lib s (s.doc.setBlockers now id change >>= fun doc => .ok (doc, ([] : List StatusChange)))
      (s.replica.setDependencies lib now (translate s.made id) (blockers.map (translate s.made)) add >>=
        fun r => .ok (r, ([] : List StatusChange))) := by
  cases h.found_or_missing hmeant with
  | inr hmissing =>
    obtain ⟨failure, hfailure⟩ := hmissing.resolve
    rw [Doc.setBlockers, todoMut_of_get hmissing.get, Replica.setDependencies, hfailure]
    exact .refused
  | inl hboth =>
    obtain ⟨key, todo, uuid, task, twin, hfound⟩ := hboth
    have hwritten : s.replica.setDependencies lib now (translate s.made id) (blockers.map (translate s.made)) add =
        s.replica.change lib twin fun task => ((((blockers.map
          (translate s.made)).filterMap lib.tryParse).filter fun on =>
          twin.blockedBy.contains on.text != add).foldl (setDependency now add) task) := by
      rw [Replica.setDependencies, hfound.resolve]
      change (if _ then _ else _) = _
      split
      · rename_i hnone
        have hsame : s.replica.tasks.insert uuid task = s.replica.tasks := by
          refine ExtTreeMap.ext_getElem? fun other => ?_
          rw [getElem?_insert_eq]
          split
          · rename_i heq
            rw [← heq, hfound.stored]
          · rfl
        rw [hfound.change, List.isEmpty_iff.mp hnone]
        exact congrArg (fun tasks => Except.ok (Replica.mk tasks)) hsame.symm
      · rfl
    rw [Doc.setBlockers, hfound.todoMut, hwritten]
    refine alike_put h hfound _ rfl (fun ticket hticket => ⟨ticket, hticket, rfl, rfl⟩) (hfound.parents h) ?_
      (ReadAs.setDependencies now hfound.read add _)
      { hfound.twins with blockedBy := fun blocker => hfound.blockers_after h hchange hnamed now blocker }
    intro blocker hblocker
    rw [mem_dedup, List.mem_insertionSort, hchange] at hblocker
    cases add with
    | false => exact hfound.blockers h blocker hblocker.1
    | true =>
      cases hblocker with
      | inl hhas => exact hfound.blockers h blocker hhas
      | inr hasked => exact (hnamed blocker hasked).resolve_right fun hunread => Bool.noConfusion hunread.1

/-- A block of ids and uuids is alike. -/
theorem alike_block (h : Simulates lib s) (now : Instant) (hmeant : s.Meant lib id) {blockers : List String}
    (hnamed : ∀ blocker ∈ blockers, blocker ∈ s.made ∨ Unreturned s.made blocker) :
    Alike lib s (s.doc.apply now (.block id blockers))
      (s.replica.apply lib now (.block (translate s.made id) (blockers.map (translate s.made)))) :=
  alike_setBlockers h now hmeant (changesBlockers_block blockers) fun blocker hmem => Or.inl (hnamed blocker hmem)

/-- An unblock of ids, uuids and texts that are read as none is alike. -/
theorem alike_unblock (h : Simulates lib s) (now : Instant) (hmeant : s.Meant lib id) {blockers : List String}
    (hnamed : ∀ blocker ∈ blockers, blocker ∈ s.made ∨ Unreturned s.made blocker ∨ lib.tryParse blocker = none) :
    Alike lib s (s.doc.apply now (.unblock id blockers))
      (s.replica.apply lib now (.unblock (translate s.made id) (blockers.map (translate s.made)))) := by
  refine alike_setBlockers h now hmeant (changesBlockers_unblock blockers) fun blocker hmem => ?_
  by_cases hmade : blocker ∈ s.made
  · exact Or.inl (Or.inl hmade)
  · cases (hnamed blocker hmem).resolve_left hmade with
    | inl hunreturned => exact Or.inl (Or.inr hunreturned)
    | inr hunread => exact Or.inr ⟨rfl, hmade, hunread⟩

end Blockers

end Devkit.Todos
