import Devkit.Todos.ListOrder

/-!
# Runs of a mirrored list

A holder resends its list any number of times, from any node and repository. Between the calls prunes
remove todos from the store, and the ids they removed are dropped from the map in a step of its own.
-/

namespace Devkit.Todos.Native

open Devkit.Library
open Std

/-- One step of a run: the holder's tool sends a list, a prune removes todos, or the map forgets some. -/
inductive MirrorLabel
  | call (node : String) (repo : Option String) (origin : Option (String → Bool)) (clock : ℕ → Instant)
      (list : List Item)
  | prune (now : Instant) (ids : List String)
  | forget (todos : List String)

namespace Mirroring

section Runs

variable (harness : Harness) (holder : Holder)

/-- One step. -/
def step (s : Mirroring) : MirrorLabel → Mirroring
  | .call node repo origin clock list => (s.listReplace ⟨harness, holder, node, repo, origin⟩ clock list).1
  | .prune now ids => { s with doc := s.doc.withDoc (s.doc.apply now (.prune ids)) }
  | .forget todos => { s with native := s.native.forgetAll todos }

/-- No store write of a call is refused, and no step of its list names a ticket. -/
def Regular (s : Mirroring) : MirrorLabel → Prop
  | .call node repo origin clock list =>
    (s.listReplace ⟨harness, holder, node, repo, origin⟩ clock list).2 = .ok () ∧
      NamesNone ⟨harness, holder, node, repo, origin⟩ (stepsOf list)
        (Capture.repoTodos ⟨harness, holder, node, repo, origin⟩ s.doc)
  | _ => True

/-- A call's list keeps the places of the steps it leaves where they are remembered. -/
def Placing (s : Mirroring) : MirrorLabel → Prop
  | .call _ _ _ _ list => KeepsPlaces harness holder s (stepsOf list)
  | _ => True

end Runs

variable {harness : Harness} {holder : Holder} {s : Mirroring}

/-- Remembering fewer steps and todos keeps the store sound. -/
theorem Sound.fewer (hsound : Sound harness holder s) {doc : Doc} {native : NativeMap}
    (keep : MirroredStep → Bool) (hnumbered : doc.Numbered) (hnext : doc.nextId = s.doc.nextId)
    (hface : ∀ key seen, doc.face key = some seen → s.doc.face key = some seen)
    (hsnapshot : native.snapshot harness holder = (s.native.snapshot harness holder).filter keep) :
    Sound harness holder ⟨doc, native⟩ := by
  refine ⟨hnumbered, fun place step hstep => ?_, ?_⟩
  · change (native.snapshot harness holder)[place]? = some step at hstep
    rw [hsnapshot, ← List.filterMap_eq_filter] at hstep
    obtain ⟨before, found, hle, hfound, hkeep⟩ := getElem?_filterMap_eq_some hstep
    obtain ⟨rfl, -⟩ := Option.guard_eq_some_iff.mp hkeep
    obtain ⟨key, hkeeps⟩ := hsound.keeps before found hfound
    refine ⟨key, hkeeps.todo, hnext ▸ hkeeps.counted, fun seen hseen => ?_⟩
    obtain ⟨htext, hticket, order, horder, hplace⟩ := hkeeps.face seen (hface key seen hseen)
    exact ⟨htext, hticket, order, horder, by omega⟩
  · change ((native.snapshot harness holder).map MirroredStep.todo).Nodup
    rw [hsnapshot]
    exact (List.filter_sublist.map MirroredStep.todo).nodup hsound.distinct

/-- A prune keeps the store sound. -/
theorem Sound.prune (hsound : Sound harness holder s) (now : Instant) (ids : List String) :
    Sound harness holder (s.step harness holder (.prune now ids)) := by
  obtain ⟨changes, happly⟩ := Doc.apply_prune s.doc now ids
  have hafter : s.step harness holder (.prune now ids) = ⟨⟨s.doc.nextId,
      eraseAll s.doc.todos ((removable (rows s.doc.todos) ids).filterMap parseKey)⟩, s.native⟩ := by
    rw [step, happly]
    rfl
  rw [hafter]
  refine hsound.fewer (fun _ => true) (hsound.numbered.kept (Doc.apply_kept happly)) rfl
    (fun key seen hseen => ?_) ?_
  · obtain ⟨todo, htodo, hface⟩ := Doc.face_eq_some.mp hseen
    rw [getElem?_eraseAll] at htodo
    split at htodo
    · contradiction
    · exact Doc.face_eq_some.mpr ⟨todo, htodo, hface⟩
  · exact (List.filter_eq_self.mpr fun _ _ => rfl).symm

/-- Forgetting todos keeps the store sound. -/
theorem Sound.forget (hsound : Sound harness holder s) (todos : List String) :
    Sound harness holder (s.step harness holder (.forget todos)) := by
  refine hsound.fewer (fun step => !todos.contains step.todo) hsound.numbered rfl (fun _ _ => id) ?_
  rw [NativeMap.forgetAll, NativeMap.snapshot, NativeMap.snapshot, ExtTreeMap.getElem?_map]
  cases s.native.snapshots[holderKey harness holder]? <;> rfl

/-- Every step that is regular and keeps the places keeps the store sound. -/
theorem Sound.step {label : MirrorLabel} (hsound : Sound harness holder s) (hregular : Regular harness holder s label)
    (hplacing : Placing harness holder s label) : Sound harness holder (s.step harness holder label) := by
  cases label with
  | call node repo origin clock list =>
    obtain ⟨keys, hplaced⟩ := listReplace_placed (c := ⟨harness, holder, node, repo, origin⟩) hsound hregular.1
      hregular.2
    exact hplaced.sound hsound hplacing.fits
  | prune now ids => exact hsound.prune now ids
  | forget todos => exact hsound.forget todos

/-- A call that is regular and keeps the places leaves the list as it was sent. -/
theorem Sound.spells (hsound : Sound harness holder s) {node : String} {repo : Option String}
    {origin : Option (String → Bool)} {clock : ℕ → Instant} {list : List Item}
    (hregular : Regular harness holder s (.call node repo origin clock list))
    (hplacing : Placing harness holder s (.call node repo origin clock list)) :
    Spells harness holder (s.step harness holder (.call node repo origin clock list)) list := by
  obtain ⟨keys, hplaced⟩ := listReplace_placed (c := ⟨harness, holder, node, repo, origin⟩) hsound hregular.1
    hregular.2
  exact hplaced.spells fun i j step later hij hi hj hstep hlater => hplacing.lt hsound hij hi hj hstep hlater

/-- In every run of a holder with nothing remembered, whose calls are regular and keep the places, every
call leaves the holder's open mirrored todos spelling the open steps of its list. -/
theorem list_keeps_order (harness : Harness) (holder : Holder) (s : Mirroring) (labels : List MirrorLabel)
    (hnumbered : s.doc.Numbered) (hfresh : s.native.snapshot harness holder = [])
    (hregular : Along (step harness holder) (Regular harness holder) s labels)
    (hplacing : Along (step harness holder) (Placing harness holder) s labels) :
    ∀ (before : List MirrorLabel) (node : String) (repo : Option String) (origin : Option (String → Bool))
      (clock : ℕ → Instant) (list : List Item), before ++ [.call node repo origin clock list] <+: labels →
        Spells harness holder
          (runFrom (step harness holder) s (before ++ [.call node repo origin clock list])) list := by
  rintro before node repo origin clock list ⟨after, rfl⟩
  have hstart : Sound harness holder s := by
    refine ⟨hnumbered, fun place step hstep => ?_, ?_⟩
    · rw [hfresh] at hstep
      cases hstep
    · rw [hfresh]
      exact List.nodup_nil
  rw [List.append_assoc] at hregular hplacing
  have hboth := (along_append.mp hregular).1.and (along_append.mp hplacing).1
  have hsound := hboth.invariant (Sound harness holder) (fun s label hs hgood => hs.step hgood.1 hgood.2) hstart
  rw [runFrom_append]
  exact hsound.spells (hregular.at_step before _ _) (hplacing.at_step before _ _)

section Example

/-- A store with no todos and no remembered lists. -/
def emptyMirroring : Mirroring := ⟨⟨1, ∅⟩, ⟨∅, ∅⟩⟩

/-- A call of the sample's session, at one instant. -/
def sampleCall (list : List Item) : MirrorLabel := .call "S" none none (fun _ => ⟨0, ""⟩) list

/-- The sample's first list: two steps done and one open. -/
def firstList : List Item :=
  [⟨some "a", some "completed"⟩, ⟨some "b", some "completed"⟩, ⟨some "c", some "pending"⟩]

/-- The list sent once the done steps were dropped: the open one and a new one. -/
def shorterList : List Item := [⟨some "c", some "pending"⟩, ⟨some "d", some "pending"⟩]

/-- The first list, a prune of its done steps, and the shorter list. -/
def prunedList : List MirrorLabel :=
  [sampleCall firstList, .prune ⟨0, ""⟩ ["1", "2"], .forget ["1", "2"], sampleCall shorterList]

/-- After a prune the open step is remembered at the first place with the order of the third, so a new
step at the second place is shown before it. -/
theorem pruned_list_out_of_order :
    Along (step .codex ⟨"S"⟩) (Regular .codex ⟨"S"⟩) emptyMirroring prunedList ∧
      ¬ Spells .codex ⟨"S"⟩ (runFrom (step .codex ⟨"S"⟩) emptyMirroring prunedList) shorterList := by
  have hnames : ∀ (next : List Step) (todos : List Todo),
      NamesNone ⟨.codex, ⟨"S"⟩, "S", none, none⟩ next todos := fun _ _ _ _ => rfl
  refine ⟨⟨⟨?_, hnames _ _⟩, trivial, trivial, ⟨?_, hnames _ _⟩, trivial⟩, ?_⟩
  · decide +kernel
  · decide +kernel
  · unfold Spells
    decide +kernel

/-- The open step again, after a new one. -/
def movedList : List Item := [⟨some "d", some "pending"⟩, ⟨some "c", some "pending"⟩]

/-- A list none of whose steps stays at its remembered place keeps the places. -/
theorem keepsPlaces_of_moved {s : Mirroring} {next : List Step} {pairs : List (Option ℕ)}
    (hpairs : pair (s.previous harness holder) next = pairs)
    (hmoved : ∀ row ∈ pairs.zipIdx, row.1 ≠ some row.2) (hfits : next.length ≤ 2 ^ 53) :
    KeepsPlaces harness holder s next := by
  refine ⟨hfits, fun i j step later order _ _ _ _ _ hstays => ?_⟩
  rw [hpairs] at hstays
  exact absurd rfl (hmoved (some i, i) (List.mem_zipIdx_iff_getElem?.mpr hstays))

/-- After the same prune, the open step sent after a new one is moved behind it. -/
theorem list_keeps_order_sample :
    Spells .codex ⟨"S"⟩ (runFrom (step .codex ⟨"S"⟩) emptyMirroring
      ([sampleCall firstList, .prune ⟨0, ""⟩ ["1", "2"], .forget ["1", "2"]] ++ [sampleCall movedList]))
      movedList := by
  have hnames : ∀ (next : List Step) (todos : List Todo),
      NamesNone ⟨.codex, ⟨"S"⟩, "S", none, none⟩ next todos := fun _ _ _ _ => rfl
  have hregular : Along (step .codex ⟨"S"⟩) (Regular .codex ⟨"S"⟩) emptyMirroring
      [sampleCall firstList, .prune ⟨0, ""⟩ ["1", "2"], .forget ["1", "2"], sampleCall movedList] := by
    refine ⟨⟨?_, hnames _ _⟩, trivial, trivial, ⟨?_, hnames _ _⟩, trivial⟩
    · decide +kernel
    · decide +kernel
  have hplacing : Along (step .codex ⟨"S"⟩) (Placing .codex ⟨"S"⟩) emptyMirroring
      [sampleCall firstList, .prune ⟨0, ""⟩ ["1", "2"], .forget ["1", "2"], sampleCall movedList] := by
    refine ⟨?_, trivial, trivial, ?_, trivial⟩
    · exact keepsPlaces_of_moved (show _ = [none, none, none] by decide +kernel) (by decide) (by decide +kernel)
    · exact keepsPlaces_of_moved (show _ = [none, some 0] by decide +kernel) (by decide) (by decide +kernel)
  exact list_keeps_order .codex ⟨"S"⟩ emptyMirroring _ Doc.numbered_empty rfl hregular hplacing _ "S" none none _
    movedList (List.prefix_refl _)

end Example

end Mirroring

end Devkit.Todos.Native
