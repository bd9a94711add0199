import Devkit.Docs.Refs
import Devkit.Library.Runs

/-!
# What reconciling drops

A row's revision tells a row the prune saw from one recorded since, as long as the two differ. Recording a row
again counts up from the snapshot's revision and comes back to it only after all revisions. A row that was dropped
and recorded again counts up from nothing, and comes to the snapshot's revision when it is recorded as often again.
-/

namespace Devkit.Docs

open Devkit.Library

/-- The registry after some changes. -/
def run (data : Data) (changes : List Change) : Data := runFrom Data.step data changes

/-- Some change recorded the key. -/
def Recorded (changes : List Change) (key : String × String) : Prop := ∃ change ∈ changes, change.records = some key

/-- Reconciling after the changes drops exactly the rows of the snapshot that are not kept and were not recorded
since. -/
def DropsSeen (snapshot : Data) (keep : List RefRow) (changes : List Change) : Prop :=
  ((run snapshot changes).reconcile snapshot keep).rows.Sublist (run snapshot changes).rows ∧
    ∀ row ∈ (run snapshot changes).rows, row ∉ ((run snapshot changes).reconcile snapshot keep).rows ↔
      (∃ old ∈ snapshot.rows, old.key = row.key) ∧ (∀ kept ∈ keep, kept.key ≠ row.key) ∧ ¬ Recorded changes row.key

/-- How a key fared since the snapshot: whether its row was dropped, and how often it was recorded since then. -/
structure Since where
  dropped : Bool
  records : ℕ

/-- How the key fared with one more change. -/
def Since.step (key : String × String) (data : Data) (since : Since) (change : Change) : Since :=
  if change.records = some key then { since with records := since.records + 1 }
  else if key ∈ data.rows.map RefRow.key ∧ key ∉ (data.step change).rows.map RefRow.key then ⟨true, 0⟩
  else since

/-- How the key fares with some more changes. -/
def Since.run (key : String × String) : Data → Since → List Change → Since
  | _, since, [] => since
  | data, since, change :: rest => Since.run key (data.step change) (since.step key data change) rest

/-- How a key of the snapshot fared with the changes since. -/
def since (snapshot : Data) (key : String × String) (changes : List Change) : Since :=
  Since.run key snapshot ⟨false, 0⟩ changes

/-- The revision a row of some revision comes to. -/
def Since.revision (since : Since) (old : UInt64) : UInt64 :=
  if since.dropped then UInt64.ofNat (since.records - 1) else old + UInt64.ofNat since.records

/-- The row is as a key fared: there unless it was dropped and not recorded since, with the revision it came to. -/
def Since.Describes (since : Since) (old : UInt64) (key : String × String) (data : Data) : Prop :=
  (key ∈ data.rows.map RefRow.key ↔ since.dropped = false ∨ 0 < since.records) ∧
    ∀ row ∈ data.rows, row.key = key → row.revision = since.revision old

/-- A change that does not record the key leaves no row of it that was not there. -/
theorem mem_of_mem_step {data : Data} {change : Change} {row : RefRow} (hother : change.records ≠ some row.key)
    (h : row ∈ (data.step change).rows) : row ∈ data.rows := by
  cases hrecords : change.records with
  | none =>
    obtain ⟨stays, hrows⟩ := Data.step_drops data hrecords
    rw [hrows] at h
    exact (List.mem_filter.mp h).1
  | some key =>
    obtain ⟨checkout, hrows⟩ := Data.step_records data hrecords
    rw [hrows] at h
    exact (mem_upsert_of_ne fun heq => hother (heq ▸ hrecords)).mp h

/-- One more record counts the revision up. -/
theorem Since.revision_record {since : Since} (hthere : since.dropped = false ∨ 0 < since.records) (old : UInt64) :
    since.revision old + 1 = Since.revision { since with records := since.records + 1 } old := by
  unfold Since.revision
  cases hdropped : since.dropped with
  | false =>
    rw [UInt64.ofNat_add]
    exact UInt64.add_assoc old _ 1
  | true =>
    have hpositive : 0 < since.records := hthere.resolve_left (by rw [hdropped]; exact Bool.noConfusion)
    obtain ⟨records, hrecords⟩ := Nat.exists_eq_add_of_lt hpositive
    simp only [if_true]
    rw [hrecords]
    exact (UInt64.ofNat_add _ 1).symm

/-- A change keeps the description right. -/
theorem Since.Describes.step {since : Since} {old : UInt64} {key : String × String} {data : Data}
    (h : since.Describes old key data) (hkeys : data.Keyed) (change : Change) :
    (since.step key data change).Describes old key (data.step change) := by
  by_cases hrecords : change.records = some key
  · obtain ⟨checkout, hrows⟩ := Data.step_records data hrecords
    rw [Since.step, if_pos hrecords]
    refine ⟨iff_of_true ?_ (Or.inr (Nat.succ_pos _)), fun row hrow hkey => ?_⟩
    · rw [hrows, keys_upsert]
      split
      · assumption
      · exact List.mem_append_right _ (List.mem_singleton_self key)
    · rw [hrows, mem_upsert hkeys hkey] at hrow
      rcases hrow with ⟨before, hbefore, hsame, rfl⟩ | ⟨hnone, rfl⟩
      · have hthere := h.1.mp (hsame ▸ List.mem_map_of_mem hbefore)
        rw [← Since.revision_record hthere, ← h.2 before hbefore hsame]
        rfl
      · obtain ⟨hdropped, hfresh⟩ := not_or.mp (mt h.1.mpr hnone)
        rw [Bool.not_eq_false] at hdropped
        rw [Since.revision, hdropped, Nat.eq_zero_of_not_pos hfresh]
        rfl
  · have hsubset : ∀ row ∈ (data.step change).rows, row.key = key → row ∈ data.rows := fun row hrow hkey =>
      mem_of_mem_step (hkey ▸ hrecords) hrow
    rw [Since.step, if_neg hrecords]
    split
    · rename_i hdrop
      refine ⟨iff_of_false hdrop.2 (by simp), fun row hrow hkey => ?_⟩
      exact absurd (hkey ▸ List.mem_map_of_mem hrow) hdrop.2
    · rename_i hstay
      refine ⟨⟨fun hafter => ?_, fun hthere => ?_⟩, fun row hrow hkey => h.2 row (hsubset row hrow hkey) hkey⟩
      · obtain ⟨row, hrow, hkey⟩ := List.mem_map.mp hafter
        exact h.1.mp (hkey ▸ List.mem_map_of_mem (hsubset row hrow hkey))
      · by_contra hgone
        exact hstay ⟨h.1.mpr hthere, hgone⟩

/-- A run keeps the description right. -/
theorem Since.Describes.run {since : Since} {old : UInt64} {key : String × String} {data : Data}
    (h : since.Describes old key data) (hkeys : data.Keyed) (changes : List Change) :
    (Since.run key data since changes).Describes old key (Docs.run data changes) := by
  induction changes generalizing data since with
  | nil => exact h
  | cons change rest ih => exact ih (h.step hkeys change) (hkeys.step change)

/-- A key that was not dropped was recorded since as often as some change recorded it. -/
theorem Since.recorded_run {since : Since} {key : String × String} {data : Data} {changes : List Change}
    (h : (Since.run key data since changes).dropped = false) :
    since.dropped = false ∧ ((Since.run key data since changes).records = 0 ↔
      since.records = 0 ∧ ¬ Recorded changes key) := by
  induction changes generalizing data since with
  | nil => exact ⟨h, (and_iff_left fun hrecorded => List.not_mem_nil hrecorded.choose_spec.1).symm⟩
  | cons change rest ih =>
    obtain ⟨hdropped, hrecords⟩ := ih h
    have hrecorded : Recorded (change :: rest) key ↔ change.records = some key ∨ Recorded rest key :=
      List.exists_mem_cons_iff ..
    rw [Since.run, hrecords, hrecorded, not_or]
    rw [Since.step] at hdropped ⊢
    split at hdropped
    · rename_i hrecords
      refine ⟨hdropped, ?_⟩
      rw [if_pos hrecords]
      simp [hrecords]
    · rename_i hother
      split at hdropped
      · cases hdropped
      · rename_i hstay
        refine ⟨hdropped, ?_⟩
        rw [if_neg hother, if_neg hstay, and_iff_right hother]

/-- What counts as recorded since was recorded by some change. -/
theorem Since.recorded_of_records {since : Since} {key : String × String} {data : Data} {changes : List Change}
    (h : (Since.run key data since changes).records ≠ 0) : since.records ≠ 0 ∨ Recorded changes key := by
  induction changes generalizing data since with
  | nil => exact Or.inl h
  | cons change rest ih =>
    rcases ih h with hstep | ⟨other, hother, hrecords⟩
    · rw [Since.step] at hstep
      split at hstep
      · exact Or.inr ⟨change, List.mem_cons_self, by assumption⟩
      · split at hstep
        · exact absurd rfl hstep
        · exact Or.inl hstep
    · exact Or.inr ⟨other, List.mem_cons_of_mem change hother, hrecords⟩

/-- Whatever was not dropped and recorded again as often, nor recorded through all revisions, can be told from what
the prune saw. -/
def Distinguished (snapshot : Data) (keep : List RefRow) (changes : List Change) : Prop :=
  ∀ old ∈ snapshot.rows, (∀ kept ∈ keep, kept.key ≠ old.key) → 0 < (since snapshot old.key changes).records →
    if (since snapshot old.key changes).dropped then
      UInt64.ofNat ((since snapshot old.key changes).records - 1) ≠ old.revision
    else UInt64.ofNat (since snapshot old.key changes).records ≠ 0

section Snapshot

variable {snapshot : Data} (hkeys : snapshot.Keyed)

include hkeys

/-- A snapshot with one row for each key has it under the key. -/
theorem lastRow_eq_some {key : String × String} {old : RefRow} :
    snapshot.lastRow key = some old ↔ old ∈ snapshot.rows ∧ old.key = key := by
  constructor
  · intro h
    exact ⟨List.mem_reverse.mp (List.mem_of_find?_eq_some h),
      beq_iff_eq.mp (List.find?_some (p := fun row : RefRow => row.key == key) h)⟩
  · rintro ⟨hold, hkey⟩
    have hfound : (snapshot.lastRow key).isSome = true :=
      List.find?_isSome.mpr ⟨old, List.mem_reverse.mpr hold, beq_iff_eq.mpr hkey⟩
    obtain ⟨other, hother⟩ := Option.isSome_iff_exists.mp hfound
    have hmem := List.mem_reverse.mp (List.mem_of_find?_eq_some hother)
    have hsame : other.key = key := beq_iff_eq.mp (List.find?_some (p := fun row : RefRow => row.key == key) hother)
    rw [hother, List.inj_on_of_nodup_map hkeys hmem hold (hsame.trans hkey.symm)]

/-- A row is dropped where the snapshot has it with its revision and it is not kept. -/
theorem not_mem_reconcile {data : Data} {keep : List RefRow} {row : RefRow} (hrow : row ∈ data.rows) :
    row ∉ (data.reconcile snapshot keep).rows ↔ ∃ old ∈ snapshot.rows, old.key = row.key ∧
      (∀ kept ∈ keep, kept.key ≠ row.key) ∧ row.revision = old.revision := by
  rw [Data.reconcile, List.mem_filter, and_iff_right hrow]
  cases hlast : snapshot.lastRow row.key with
  | none =>
    refine iff_of_false (fun hnot => hnot rfl) ?_
    rintro ⟨old, hold, hsame, _⟩
    rw [(lastRow_eq_some hkeys).mpr ⟨hold, hsame⟩] at hlast
    cases hlast
  | some old =>
    have hold := (lastRow_eq_some hkeys).mp hlast
    simp only [Bool.or_eq_true, List.any_eq_true, beq_iff_eq, bne_iff_ne, not_or, not_exists, not_and, ne_eq, not_not]
    constructor
    · exact fun ⟨hkeep, hrevision⟩ => ⟨old, hold.1, hold.2, hkeep, hrevision⟩
    · rintro ⟨other, hother, hsame, hkeep, hrevision⟩
      obtain rfl := List.inj_on_of_nodup_map hkeys hother hold.1 (hsame.trans hold.2.symm)
      exact ⟨hkeep, hrevision⟩

/-- At the snapshot every key of it is as it is. -/
theorem describes_snapshot {old : RefRow} (hold : old ∈ snapshot.rows) :
    (⟨false, 0⟩ : Since).Describes old.revision old.key snapshot := by
  refine ⟨iff_of_true (List.mem_map_of_mem hold) (Or.inl rfl), fun row hrow hkey => ?_⟩
  rw [List.inj_on_of_nodup_map hkeys hrow hold hkey]
  exact (UInt64.add_zero _).symm

end Snapshot

/-- Reconciling drops exactly what the prune saw as long as what was recorded since can be told from it. -/
theorem reconcile_dropsSeen_iff (snapshot : Data) (keep : List RefRow) (changes : List Change)
    (hkeys : snapshot.Keyed) : DropsSeen snapshot keep changes ↔ Distinguished snapshot keep changes := by
  have hdescribes {old : RefRow} (hold : old ∈ snapshot.rows) :
      (since snapshot old.key changes).Describes old.revision old.key (run snapshot changes) :=
    (describes_snapshot hkeys hold).run hkeys changes
  have hrecorded {key : String × String} (h : 0 < (since snapshot key changes).records) : Recorded changes key :=
    (Since.recorded_of_records (Nat.ne_of_gt h)).resolve_left fun hne => hne rfl
  constructor
  · rintro ⟨_, hdrops⟩ old hold hkeep hrecords
    obtain ⟨row, hrow, hkey⟩ := List.mem_map.mp ((hdescribes hold).1.mpr (Or.inr hrecords))
    have hrevision := (hdescribes hold).2 row hrow hkey
    have hdiffers : row.revision ≠ old.revision := by
      intro heq
      have hdropped := (not_mem_reconcile hkeys hrow).mpr ⟨old, hold, hkey.symm, hkey ▸ hkeep, heq⟩
      exact ((hdrops row hrow).mp hdropped).2.2 (hkey ▸ hrecorded hrecords)
    rw [hrevision, Since.revision] at hdiffers
    split at hdiffers
    · rename_i hdropped
      rw [if_pos hdropped]
      exact hdiffers
    · rename_i hdropped
      rw [if_neg hdropped]
      exact fun hzero => hdiffers (by rw [hzero, UInt64.add_zero])
  · intro hdistinguished
    refine ⟨List.filter_sublist, fun row hrow => ?_⟩
    rw [not_mem_reconcile hkeys hrow]
    constructor
    · rintro ⟨old, hold, hkey, hkeep, heq⟩
      refine ⟨⟨old, hold, hkey⟩, hkeep, fun hchanged => ?_⟩
      rw [← hkey] at hkeep hchanged
      have hthere := (hdescribes hold).1.mp (hkey ▸ List.mem_map_of_mem hrow)
      have hrecords : 0 < (since snapshot old.key changes).records := by
        rcases hthere with hdropped | hpositive
        · refine Nat.pos_of_ne_zero fun hzero => ?_
          exact ((Since.recorded_run hdropped).2.mp hzero).2 hchanged
        · exact hpositive
      have hdiffers := hdistinguished old hold hkeep hrecords
      have hrevision := (hdescribes hold).2 row hrow hkey.symm
      rw [heq, Since.revision] at hrevision
      split at hdiffers
      · rename_i hdropped
        rw [if_pos hdropped] at hrevision
        exact hdiffers hrevision.symm
      · rename_i hdropped
        rw [if_neg hdropped] at hrevision
        exact hdiffers (by simpa using hrevision)
    · rintro ⟨⟨old, hold, hkey⟩, hkeep, hunchanged⟩
      have hthere := (hdescribes hold).1.mp (hkey ▸ List.mem_map_of_mem hrow)
      have hnone : (since snapshot old.key changes).records = 0 :=
        Nat.eq_zero_of_not_pos fun hpositive => hunchanged (hkey ▸ hrecorded hpositive)
      have hdropped := hthere.resolve_right (by rw [hnone]; exact Nat.lt_irrefl 0)
      refine ⟨old, hold, hkey, hkeep, ?_⟩
      rw [(hdescribes hold).2 row hrow hkey.symm, Since.revision, hdropped, hnone]
      exact UInt64.add_zero _

section Example

/-- A row recorded once. -/
def onceRow : RefRow := ⟨"/A", "libX", "1.0.0", "v1.0.0", "aaa", 42, 0⟩

/-- A registry with that row alone has one row for each key. -/
theorem keyed_onceRow : Data.Keyed ⟨[onceRow]⟩ := List.nodup_singleton _

/-- The row is forgotten and recorded again for another checkout. -/
def forgottenChanges : List Change :=
  [.forget [Common.bytes "/A"] "libX", .record "/A" "libX" ⟨"2.0.0", "v2.0.0", "bbb", 43⟩]

/-- A row that was forgotten and recorded again has the revision the snapshot saw, and is dropped. -/
theorem reconcile_drops_rerecorded : ¬ DropsSeen ⟨[onceRow]⟩ [] forgottenChanges := by
  rintro ⟨_, hdrops⟩
  have hrow : ⟨"/A", "libX", "2.0.0", "v2.0.0", "bbb", 43, 0⟩ ∈ (run ⟨[onceRow]⟩ forgottenChanges).rows := by
    decide +kernel
  have hdropped := (not_mem_reconcile keyed_onceRow hrow).mpr
    ⟨onceRow, List.mem_singleton_self _, rfl, fun kept hkept => absurd hkept List.not_mem_nil, rfl⟩
  exact ((hdrops _ hrow).mp hdropped).2.2 ⟨_, List.mem_cons_of_mem _ (List.mem_singleton_self _), rfl⟩

/-- A row recorded three times. -/
def thriceRow : RefRow := ⟨"/B", "libX", "1.0.0", "v1.0.0", "aaa", 42, 2⟩

/-- The row is forgotten and recorded again. -/
def resolvedChanges : List Change :=
  [.forget [Common.bytes "/B"] "libX", .record "/B" "libX" ⟨"2.0.0", "v2.0.0", "bbb", 43⟩]

/-- Of two rows the one that is forgotten and recorded again stays, as it has not come to its revision again. -/
theorem reconcile_dropsSeen_iff_sample : DropsSeen ⟨[onceRow, thriceRow]⟩ [] resolvedChanges := by
  have hkeys : Data.Keyed ⟨[onceRow, thriceRow]⟩ := by
    unfold Data.Keyed
    decide
  refine (reconcile_dropsSeen_iff ⟨[onceRow, thriceRow]⟩ [] resolvedChanges hkeys).mpr fun old hold _ => ?_
  rcases List.mem_pair.mp hold with rfl | rfl
  · decide +kernel
  · decide +kernel

end Example

end Devkit.Docs
