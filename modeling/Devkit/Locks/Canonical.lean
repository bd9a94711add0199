import Devkit.Locks.Keys

/-!
# Which spellings have canonical keys

The clean form of a spelling that starts with the root's components loses as many names of
the root as the rest climbs out of it, while the key loses none. The two agree exactly when
the rest stays inside.
-/

namespace Devkit.Locks

open Devkit.Common
open Devkit.Library

/-- A name that reads as "." is ".". -/
theorem eq_dot_of_toStr {name : OsStr} (h : toStr name = some ".") : name = [dot] := by
  unfold toStr String.fromUTF8? at h
  split at h
  · have hbytes := congrArg (fun t : String => t.toByteArray.data.toList) (Option.some.inj h)
    exact hbytes.trans (by decide +kernel)
  · contradiction

/-- Dropping leading parts of a key that names a path changes it. -/
theorem joinParts_ne_of_drop {front back : List String} (hfront : front ≠ [])
    (hname : ∀ part ∈ front, part ≠ ".") : joinParts (front ++ back) ≠ joinParts back := by
  intro heq
  by_cases hback : back = []
  · subst hback
    obtain ⟨first, rest, rfl⟩ := List.exists_cons_of_ne_nil hfront
    cases rest with
    | nil => exact hname first List.mem_cons_self (by simpa [joinParts] using heq)
    | cons second rest =>
      have hslash : '/' ∈ (joinParts (first :: second :: rest ++ [])).toList := by
        simp [joinParts, String.intercalate_cons_cons]
      rw [heq] at hslash
      simp [joinParts] at hslash
  · have hlength := congrArg String.length heq
    simp [joinParts, hfront, hback, String.intercalate_append_of_ne_nil] at hlength

/-- Readable names have a key as a path. -/
theorem relativeKey_of_readable {names : List OsStr} (h : ∀ name ∈ names, (toStr name).isSome) :
    relativeKey names = some (joinParts (names.map text)) := by
  have hmap : names.mapM toStr = some (names.map text) := by
    induction names with
    | nil => rfl
    | cons name names ih =>
      obtain ⟨t, ht⟩ := Option.isSome_iff_exists.mp (h name List.mem_cons_self)
      rw [List.mapM_cons, ih fun other hother => h other (List.mem_cons_of_mem _ hother)]
      simp [text, ht]
  rw [relativeKey, hmap]
  rfl

/-- Clean forms compare as their names do. -/
theorem normalizeLexically_eq_append_iff {abs root : AbsPath} {names : List OsStr} :
    normalizeLexically abs.path = normalizeLexically root.path ++ names.map .normal ↔
      abs.names = root.names ++ names := by
  have hinj : Function.Injective Component.normal := fun _ _ h => by cases h; rfl
  rw [abs.normalizeLexically_eq, root.normalizeLexically_eq, List.cons_append, List.cons_inj_right,
    ← List.map_append, List.map_inj_right hinj]

/-- Being under the root is being below its names. -/
theorem underRoot_iff {abs root : AbsPath} :
    UnderRoot abs root ↔ ∃ names, abs.names = root.names ++ names := by
  have hinj : Function.Injective Component.normal := fun _ _ h => by cases h; rfl
  rw [UnderRoot, abs.normalizeLexically_eq, root.normalizeLexically_eq, List.cons_prefix_cons,
    List.prefix_map_iff_of_injective hinj]
  exact ⟨fun ⟨_, names, h⟩ => ⟨names, h.symm⟩, fun ⟨names, h⟩ => ⟨rfl, names, h.symm⟩⟩

/-- The clean form of a spelling that starts with the root's components. -/
theorem names_of_continues {abs root : AbsPath} {rest : List Component} (h : Continues abs root rest) :
    abs.names = root.names.take (root.names.length - climb (movesOf rest)) ++ walk [] (movesOf rest) := by
  have hbody : abs.body = root.body ++ rest := by
    rw [Continues, abs.components_eq, root.components_eq] at h
    exact (List.cons.inj h).2
  rw [← walk_eq, AbsPath.names, AbsPath.moves, hbody, List.filterMap_append, walk_append]
  rfl

/-- Names a rest leads to are names of the rest. -/
theorem normal_mem_of_mem_walk {rest : List Component} {name : OsStr}
    (h : name ∈ walk [] (movesOf rest)) : .normal name ∈ rest := by
  rcases mem_walk h with hnil | hmove
  · exact absurd hnil List.not_mem_nil
  · obtain ⟨component, hcomponent, hdown⟩ := List.mem_filterMap.mp hmove
    cases component with
    | normal other =>
      obtain rfl : other = name := by simpa [Component.move] using hdown
      exact hcomponent
    | rootDir | curDir | parentDir => cases hdown

/-- A spelling whose rest leaves a root other than "/" gets a key its clean form does not have. -/
theorem not_canonical_of_climb {abs root : AbsPath} {rest : List Component}
    (hrest : Continues abs root rest) (hreadable : Readable rest) (hclimb : climb (movesOf rest) ≠ 0)
    (hroot : root.names ≠ []) : ¬ Canonical abs root := by
  rintro ⟨_, hkey⟩
  have hcode := normalizeUnderRoot_of_readable hrest hreadable
  obtain ⟨names, hclean, hrel⟩ := hkey _ hcode
  rw [normalizeLexically_eq_append_iff, names_of_continues hrest] at hclean
  -- The names climbed out of are the difference between the key and the clean relative path.
  set kept := root.names.length - climb (movesOf rest) with hkept
  have hlost : root.names.drop kept ≠ [] := by
    have := List.length_pos_iff.mpr hroot
    rw [ne_eq, List.drop_eq_nil_iff]
    omega
  have hwalk : walk [] (movesOf rest) = root.names.drop kept ++ names := by
    nth_rewrite 2 [← List.take_append_drop kept root.names] at hclean
    rw [List.append_assoc] at hclean
    exact List.append_cancel_left hclean
  have hmem : ∀ name ∈ walk [] (movesOf rest), .normal name ∈ rest := fun _ => normal_mem_of_mem_walk
  rw [relativeKey_of_readable fun name hname =>
    hreadable name (hmem name (hwalk ▸ List.mem_append_right _ hname)), Option.some.injEq, hwalk,
    List.map_append] at hrel
  refine joinParts_ne_of_drop (by simpa using hlost) ?_ hrel.symm
  intro part hpart hdot
  obtain ⟨name, hname, rfl⟩ := List.mem_map.mp hpart
  have hin : .normal name ∈ rest := hmem name (hwalk ▸ List.mem_append_left _ hname)
  obtain ⟨t, ht⟩ := Option.isSome_iff_exists.mp (hreadable name hin)
  have hbody : .normal name ∈ abs.body := by
    have : .normal name ∈ components abs.path := hrest ▸ List.mem_append_right _ hin
    simpa [abs.components_eq] using this
  refine (AbsPath.mem_body_normal hbody).2 (eq_dot_of_toStr ?_)
  simpa [text, ht] using hdot

/-- Keys are canonical exactly for the spellings that start with the root's components and,
readable throughout, never climb out of it (no path leaves the root "/"), and for those that
have no such readable rest and are not under the root. -/
theorem canonical_iff (abs root : AbsPath) :
    Canonical abs root ↔
      (∃ rest, Continues abs root rest ∧ Readable rest ∧
        (climb (movesOf rest) = 0 ∨ normalizeLexically root.path = [.rootDir])) ∨
      (∀ rest, Continues abs root rest → ¬ Readable rest) ∧ ¬ UnderRoot abs root := by
  by_cases hread : ∃ rest, Continues abs root rest ∧ Readable rest
  · obtain ⟨rest, hrest, hreadable⟩ := hread
    have hcode := normalizeUnderRoot_of_readable hrest hreadable
    have hroot : normalizeLexically root.path = [.rootDir] ↔ root.names = [] := by
      simp [root.normalizeLexically_eq]
    constructor
    · intro hcanonical
      refine Or.inl ⟨rest, hrest, hreadable, ?_⟩
      by_contra hclimb
      obtain ⟨hpos, hnames⟩ := not_or.mp hclimb
      exact not_canonical_of_climb hrest hreadable hpos (mt hroot.mpr hnames) hcanonical
    · rintro (⟨rest', hrest', _, hstays⟩ | ⟨hnone, _⟩)
      · obtain rfl := hrest.unique hrest'
        have hnames : abs.names = root.names ++ walk [] (movesOf rest) := by
          rw [names_of_continues hrest]
          rcases hstays with hzero | htop
          · simp [hzero]
          · simp [hroot.mp htop]
        refine ⟨⟨fun _ => underRoot_iff.mpr ⟨_, hnames⟩, fun _ => ⟨_, hcode⟩⟩, fun key hkey => ?_⟩
        obtain rfl := Except.ok.inj (hcode.symm.trans hkey)
        exact ⟨_, normalizeLexically_eq_append_iff.mpr hnames,
          relativeKey_of_readable fun name hname => hreadable name (normal_mem_of_mem_walk hname)⟩
      · exact absurd hreadable (hnone rest hrest)
  · have hnone : ∀ rest, Continues abs root rest → ¬ Readable rest := fun rest hrest hreadable =>
      hread ⟨rest, hrest, hreadable⟩
    have hcode := normalizeUnderRoot_of_not_readable hnone
    constructor
    · rintro ⟨hiff, _⟩
      refine Or.inr ⟨hnone, fun hunder => ?_⟩
      obtain ⟨key, hkey⟩ := hiff.mpr hunder
      exact hcode key hkey
    · rintro (⟨rest, hrest, hreadable, _⟩ | ⟨_, hnot⟩)
      · exact absurd hreadable (hnone rest hrest)
      · exact ⟨⟨fun ⟨key, hkey⟩ => absurd hkey (hcode key), fun hunder => absurd hunder hnot⟩,
          fun key hkey => absurd hkey (hcode key)⟩

/-- A file in a sibling of the checkout, spelled through the checkout. -/
def climbingPath : AbsPath := ⟨bytes "/repo/../etc", by decide +kernel⟩

/-- The checkout root. -/
def repoPath : AbsPath := ⟨bytes "/repo", by decide +kernel⟩

/-- The spelling that leaves the checkout is outside it and still gets a key inside it. -/
theorem climbingPath_not_canonical :
    normalizeUnderRoot climbingPath.path repoPath.path = .ok "etc" ∧ ¬ UnderRoot climbingPath repoPath ∧
      ¬ Canonical climbingPath repoPath := by
  have hcode : normalizeUnderRoot climbingPath.path repoPath.path = .ok "etc" := by decide +kernel
  have hnot : ¬ UnderRoot climbingPath repoPath := by decide +kernel
  exact ⟨hcode, hnot, fun h => hnot (h.1.mp ⟨"etc", hcode⟩)⟩

end Devkit.Locks
