import Devkit.Config.Template
import Devkit.Library.Outcomes
import Mathlib.Data.List.Induction

/-!
# Filling and reading a template agree

A segment is fixed text around at most one open value, and a harness name somewhere in the text. No harness name starts
or ends like another, so the text of a segment tells its harness, and what stands between the fixed text is the value.
Filling and reading a segment then say the same of the same values, and a template is its segments.
-/

namespace Devkit.Config

open Devkit.Library
open Std

section Segment

/-- Whether a part is the harness placeholder. -/
def Part.isHarness (part : Part) : Bool := part == .value "harness"

/-- Text is not the harness. -/
@[simp] theorem Part.isHarness_literal (text : List Char) : (Part.literal text).isHarness = false := rfl

/-- The harness placeholder is the harness. -/
@[simp] theorem Part.isHarness_harness : (Part.value "harness").isHarness = true := rfl

/-- No part is an open placeholder. -/
def Closed (parts : List Part) : Prop := ∀ part ∈ parts, part.isOpen = false

/-- The text of a part that is not open, for one harness. -/
def Part.fixed (harness : String) : Part → List Char
  | .literal text => text
  | .value _ => harness.toList

/-- The text of parts that are not open, for one harness. -/
def fixedText (harness : String) (parts : List Part) : List Char := parts.flatMap (Part.fixed harness)

/-- The row of the harness, of parts that name one. -/
def harnessRow (harness : String) (parts : List Part) : List (String × String) :=
  if parts.any Part.isHarness then [("harness", harness)] else []

/-- A closed part is text or the harness. -/
theorem Closed.head {part : Part} {rest : List Part} (h : Closed (part :: rest)) :
    (∃ text, part = .literal text) ∨ part = .value "harness" := by
  have hopen := h part List.mem_cons_self
  cases part with
  | literal text => exact Or.inl ⟨text, rfl⟩
  | value name => exact Or.inr (by simpa [Part.isOpen] using hopen)

/-- The rest of closed parts is closed. -/
theorem Closed.tail {part : Part} {rest : List Part} (h : Closed (part :: rest)) : Closed rest :=
  fun other hother => h other (List.mem_cons_of_mem part hother)

/-- Parts with at most one open one are closed, or closed around it. -/
theorem closed_or_around {parts : List Part} (h : (parts.filter Part.isOpen).length ≤ 1) :
    Closed parts ∨ ∃ before name after, parts = before ++ .value name :: after ∧ name ≠ "harness" ∧
      Closed before ∧ Closed after := by
  induction parts with
  | nil => exact Or.inl fun part hpart => absurd hpart List.not_mem_nil
  | cons part rest ih =>
    cases hopen : part.isOpen with
    | false =>
      rw [List.filter_cons_of_neg (by simp [hopen])] at h
      rcases ih h with hclosed | ⟨before, name, after, rfl, hname, hbefore, hafter⟩
      · exact Or.inl fun other hother => (List.mem_cons.mp hother).elim (· ▸ hopen) (hclosed other)
      · refine Or.inr ⟨part :: before, name, after, rfl, hname, fun other hother => ?_, hafter⟩
        exact (List.mem_cons.mp hother).elim (· ▸ hopen) (hbefore other)
    | true =>
      rw [List.filter_cons_of_pos hopen, List.length_cons] at h
      have hnil : rest.filter Part.isOpen = [] := List.length_eq_zero_iff.mp (by omega)
      cases part with
      | literal text => simp [Part.isOpen] at hopen
      | value name =>
        refine Or.inr ⟨[], name, rest, rfl, by simpa [Part.isOpen] using hopen, ?_, fun other hother => ?_⟩
        · exact fun other hother => absurd hother List.not_mem_nil
        · simpa using List.filter_eq_nil_iff.mp hnil other hother

/-- Text that names no harness is the same for every harness. -/
theorem fixedText_congr {parts : List Part} (hclosed : Closed parts) (hnone : parts.any Part.isHarness = false)
    (h h' : String) : fixedText h parts = fixedText h' parts := by
  induction parts with
  | nil => rfl
  | cons part rest ih =>
    rw [List.any_cons, Bool.or_eq_false_iff] at hnone
    rcases hclosed.head with ⟨text, rfl⟩ | rfl
    · simp only [fixedText, List.flatMap_cons] at ih ⊢
      rw [ih hclosed.tail hnone.2]
      rfl
    · simp at hnone

/-- No harness name starts like another. -/
theorem eq_of_leading_harness : ∀ h ∈ harnessPrefixes, ∀ h' ∈ harnessPrefixes,
    h.toList <+: h'.toList → h = h' := by decide

/-- No harness name ends like another. -/
theorem eq_of_trailing_harness : ∀ h ∈ harnessPrefixes, ∀ h' ∈ harnessPrefixes,
    h.toList <:+ h'.toList → h = h' := by decide

/-- Text at the start of a node tells its harness. -/
theorem harness_eq_of_leading {parts : List Part} {node : List Char} {h h' : String} (hh : h ∈ harnessPrefixes)
    (hh' : h' ∈ harnessPrefixes) (hclosed : Closed parts) (hsome : parts.any Part.isHarness = true)
    (hnode : fixedText h parts <+: node) (hnode' : fixedText h' parts <+: node) : h = h' := by
  induction parts generalizing node with
  | nil => simp at hsome
  | cons part rest ih =>
    simp only [fixedText, List.flatMap_cons] at hnode hnode' ih
    rcases hclosed.head with ⟨text, rfl⟩ | rfl
    · obtain ⟨more, rfl⟩ := (List.prefix_append _ _).trans hnode
      refine ih hclosed.tail ?_ ((List.prefix_append_right_inj _).mp hnode)
        ((List.prefix_append_right_inj _).mp hnode')
      simpa using hsome
    · have hstart : h.toList <+: node := (List.prefix_append _ _).trans hnode
      have hstart' : h'.toList <+: node := (List.prefix_append _ _).trans hnode'
      rcases List.prefix_or_prefix_of_prefix hstart hstart' with hle | hle
      · exact eq_of_leading_harness h hh h' hh' hle
      · exact (eq_of_leading_harness h' hh' h hh hle).symm

/-- Text at the end of a node tells its harness. -/
theorem harness_eq_of_trailing {parts : List Part} {node : List Char} {h h' : String} (hh : h ∈ harnessPrefixes)
    (hh' : h' ∈ harnessPrefixes) (hclosed : Closed parts) (hsome : parts.any Part.isHarness = true)
    (hnode : fixedText h parts <:+ node) (hnode' : fixedText h' parts <:+ node) : h = h' := by
  induction parts using List.reverseRecOn generalizing node with
  | nil => simp at hsome
  | append_singleton rest part ih =>
    have htail : Closed rest := fun other hother => hclosed other (List.mem_append_left _ hother)
    have hlast : Closed [part] := fun other hother => hclosed other (List.mem_append_right _ hother)
    simp only [fixedText, List.flatMap_append, List.flatMap_singleton] at hnode hnode' ih
    rcases hlast.head with ⟨text, rfl⟩ | rfl
    · obtain ⟨more, rfl⟩ := (List.suffix_append _ _).trans hnode
      refine ih htail ?_ (List.suffix_append_self_iff.mp hnode)
        (List.suffix_append_self_iff.mp hnode')
      simpa using hsome
    · have hend : h.toList <:+ node := (List.suffix_append _ _).trans hnode
      have hend' : h'.toList <:+ node := (List.suffix_append _ _).trans hnode'
      rcases List.suffix_or_suffix_of_suffix hend hend' with hle | hle
      · exact eq_of_trailing_harness h hh h' hh' hle
      · exact (eq_of_trailing_harness h' hh' h hh hle).symm

/-- Walking closed parts adds their text where the segment has got to. -/
theorem foldl_push_of_closed {parts : List Part} (hclosed : Closed parts) (h : String) (a : Around) :
    parts.foldl (Around.push h) a =
      { a.pushStr (fixedText h parts) with hasHarness := a.hasHarness || parts.any Part.isHarness } := by
  induction parts generalizing a with
  | nil =>
    obtain ⟨before, after, opened, hasHarness⟩ := a
    cases opened <;> simp [Around.pushStr, fixedText]
  | cons part rest ih =>
    rw [List.foldl_cons, ih hclosed.tail]
    obtain ⟨before, after, opened, hasHarness⟩ := a
    rcases hclosed.head with ⟨text, rfl⟩ | rfl <;> cases opened <;>
      simp [Around.push, Around.pushStr, fixedText, Part.fixed]

/-- A closed segment is its text. -/
theorem readAs_of_closed {parts : List Part} (hclosed : Closed parts) {node : List Char} {h : String}
    {found : List (String × String)} :
    readAs parts node h = some found ↔ node = fixedText h parts ∧ found = harnessRow h parts := by
  have haround : around h parts = ⟨fixedText h parts, [], none, parts.any Part.isHarness⟩ := by
    rw [around, foldl_push_of_closed hclosed]
    simp [Around.pushStr]
  simp only [readAs, haround, harnessRow]
  by_cases hnode : node = fixedText h parts
  · rw [if_neg (not_not.mpr hnode), Option.map_some, Option.some.injEq]
    exact ⟨fun heq => ⟨hnode, heq.symm⟩, fun heq => heq.2.symm⟩
  · rw [if_pos hnode]
    exact ⟨fun heq => (Option.some_ne_none _ heq.symm).elim, fun heq => absurd heq.1 hnode⟩

/-- Whether a text may be the value of an open placeholder of a node. -/
def openValue (value : List Char) : Prop := value ≠ [] ∧ ∀ c ∈ value, c ≠ '/' ∧ c ≠ '\\'

/-- Stripping both ends leaves what stands between them. -/
theorem strip_eq_some_iff {before after node value : List Char} :
    ((node.dropPrefix? before).bind fun rest => rest.dropSuffix? after) = some value ↔
      node = before ++ value ++ after := by
  simp only [Option.bind_eq_some_iff, List.dropPrefix?_eq_some_iff, List.dropSuffix?_eq_some_iff, beq_iff_eq]
  constructor
  · rintro ⟨rest, ⟨start, rfl, rfl⟩, last, rfl, rfl⟩
    rw [List.append_assoc]
  · rintro rfl
    exact ⟨value ++ after, ⟨before, List.append_assoc before value after, rfl⟩, after, rfl, rfl⟩

/-- The test on a value that was read. -/
theorem openValue_iff {value : List Char} :
    openValue value ↔ (value.isEmpty || value.any fun c => c == '/' || c == '\\') = false := by
  simp only [openValue, Bool.or_eq_false_iff, List.isEmpty_eq_false_iff, List.any_eq_false, beq_iff_eq,
    Bool.or_eq_true, not_or, ne_eq]

/-- A segment around an open placeholder is its text around a value. -/
theorem readAs_of_around {before after : List Part} {name : String} (hname : name ≠ "harness")
    (hbefore : Closed before) (hafter : Closed after) {node : List Char} {h : String}
    {found : List (String × String)} :
    readAs (before ++ .value name :: after) node h = some found ↔
      ∃ value, node = fixedText h before ++ value ++ fixedText h after ∧ openValue value ∧
        found = (name, String.ofList value) :: harnessRow h (before ++ after) := by
  have haround : around h (before ++ .value name :: after) =
      ⟨fixedText h before, fixedText h after, some name, (before ++ after).any Part.isHarness⟩ := by
    rw [around, List.foldl_append, List.foldl_cons, foldl_push_of_closed hbefore, foldl_push_of_closed hafter]
    simp [Around.push, Around.pushStr, hname]
  have hread : readAs (before ++ .value name :: after) node h =
      ((node.dropPrefix? (fixedText h before)).bind fun rest => rest.dropSuffix? (fixedText h after)).bind
        fun value => if value.isEmpty || value.any fun c => c == '/' || c == '\\' then none
          else some ((name, String.ofList value) :: harnessRow h (before ++ after)) := by
    simp only [readAs, haround, harnessRow]
    cases node.dropPrefix? (fixedText h before) with
    | none => rfl
    | some rest =>
      cases hvalue : rest.dropSuffix? (fixedText h after) with
      | none => simp [hvalue]
      | some value =>
        simp only [Option.bind_eq_bind, Option.bind_some, hvalue]
        cases hbad : value.isEmpty || value.any fun c => c == '/' || c == '\\' <;>
          cases hsome : (before ++ after).any Part.isHarness <;> rfl
  rw [hread, Option.bind_eq_some_iff]
  simp only [strip_eq_some_iff]
  refine exists_congr fun value => and_congr_right fun _ => ?_
  rw [openValue_iff]
  split
  · rename_i hbad
    simp [hbad]
  · rename_i hgood
    simp [hgood, eq_comm]

/-- The names of closed parts are the harness, if they have it. -/
theorem mem_names_of_closed {parts : List Part} (hclosed : Closed parts) {name : String} :
    name ∈ names parts ↔ name = "harness" ∧ parts.any Part.isHarness = true := by
  induction parts with
  | nil => simp [names]
  | cons part rest ih =>
    have htail := ih hclosed.tail
    rcases hclosed.head with ⟨text, rfl⟩ | rfl
    · simpa [names, Part.name?] using htail
    · simp only [names, List.filterMap_cons, Part.name?, List.mem_cons, List.any_cons, Part.isHarness_harness,
        Bool.true_or, and_true] at htail ⊢
      exact ⟨fun h => h.elim id fun h => (htail.mp h).1, Or.inl⟩

/-- The rows of a reading are of one harness, that of the node. -/
theorem mem_harnessRow {h : String} {parts : List Part} {name value : String} :
    (name, value) ∈ harnessRow h parts ↔ parts.any Part.isHarness = true ∧ name = "harness" ∧ value = h := by
  unfold harnessRow
  split
  · rename_i hsome
    simp [hsome]
  · rename_i hnone
    simp [hnone]

/-- A harness name may be a value. -/
theorem fits_harness {h : String} (hh : h ∈ harnessPrefixes) : fits "harness" h = true := by
  have hall : ∀ h ∈ harnessPrefixes, fits "harness" h = true := by decide
  exact hall h hh

/-- The value of the harness placeholder is a harness name. -/
theorem harness_of_fits {h : String} (hfits : fits "harness" h = true) : h ∈ harnessPrefixes := by
  simp only [fits, Bool.and_eq_true, bne_self_eq_false, Bool.false_or, List.contains_iff_mem] at hfits
  exact hfits.2

/-- A segment of no parts has no text. -/
theorem fillSegment_nil (values : Values) : fillSegment values [] = some [] := rfl

/-- A segment starts with its first part. -/
theorem fillSegment_cons (values : Values) (part : Part) (rest : List Part) :
    fillSegment values (part :: rest) =
      (fillPart values part).bind fun text => (fillSegment values rest).map fun more => text ++ more := by
  simp only [fillSegment, List.mapM_cons]
  cases fillPart values part with
  | none => rfl
  | some text => cases List.mapM (fillPart values) rest <;> rfl

/-- A segment is the text of its halves. -/
theorem fillSegment_append (values : Values) (parts rest : List Part) :
    fillSegment values (parts ++ rest) =
      (fillSegment values parts).bind fun text => (fillSegment values rest).map fun more => text ++ more := by
  induction parts with
  | nil =>
    rw [List.nil_append, fillSegment_nil]
    cases fillSegment values rest <;> rfl
  | cons part parts ih =>
    rw [List.cons_append, fillSegment_cons, fillSegment_cons, ih]
    cases fillPart values part with
    | none => rfl
    | some text =>
      cases fillSegment values parts with
      | none => rfl
      | some more => cases fillSegment values rest <;> simp

/-- A closed segment filled is its text, for the harness of the values. -/
theorem fillSegment_of_closed {values : Values} {parts : List Part} (hclosed : Closed parts) {node : List Char} :
    fillSegment values parts = some node ↔ ∃ h ∈ harnessPrefixes,
      (parts.any Part.isHarness = true → values["harness"]? = some h) ∧ node = fixedText h parts := by
  induction parts generalizing node with
  | nil =>
    have hclaude : "claude" ∈ harnessPrefixes := by decide
    rw [fillSegment_nil]
    simp only [List.any_nil, fixedText, List.flatMap_nil]
    exact ⟨fun heq => ⟨"claude", hclaude, by simp, (Option.some.inj heq).symm⟩,
      fun ⟨_, _, _, hnode⟩ => by rw [hnode]⟩
  | cons part rest ih =>
    have hrest {more : List Char} : fillSegment values rest = some more ↔ ∃ h ∈ harnessPrefixes,
        (rest.any Part.isHarness = true → values["harness"]? = some h) ∧ more = fixedText h rest := ih hclosed.tail
    rw [fillSegment_cons]
    simp only [Option.bind_eq_some_iff, Option.map_eq_some_iff, hrest]
    rcases hclosed.head with ⟨text, rfl⟩ | rfl
    · simp only [fillPart, Option.some.injEq, List.any_cons, Part.isHarness_literal, Bool.false_or, fixedText,
        List.flatMap_cons, Part.fixed]
      constructor
      · rintro ⟨_, rfl, _, ⟨h, hh, hvalue, rfl⟩, rfl⟩
        exact ⟨h, hh, hvalue, rfl⟩
      · rintro ⟨h, hh, hvalue, rfl⟩
        exact ⟨text, rfl, _, ⟨h, hh, hvalue, rfl⟩, rfl⟩
    · simp only [fillPart, Option.map_eq_some_iff, Option.filter_eq_some_iff, List.any_cons,
        Part.isHarness_harness, Bool.true_or, forall_true_left, fixedText, List.flatMap_cons, Part.fixed]
      constructor
      · rintro ⟨_, ⟨h, ⟨hvalue, hfits⟩, rfl⟩, _, ⟨h', _, hsame, rfl⟩, rfl⟩
        refine ⟨h, harness_of_fits hfits, hvalue, congrArg (h.toList ++ ·) ?_⟩
        cases hsome : rest.any Part.isHarness with
        | false => exact fixedText_congr hclosed.tail hsome h' h
        | true =>
          obtain rfl := Option.some.inj (hvalue.symm.trans (hsame hsome))
          rfl
      · rintro ⟨h, hh, hvalue, rfl⟩
        exact ⟨_, ⟨h, ⟨hvalue, fits_harness hh⟩, rfl⟩, _, ⟨h, hh, fun _ => hvalue, rfl⟩, rfl⟩

/-- A value that fits an open placeholder has no dot, and may be read. -/
theorem fits_open {name value : String} (hname : name ≠ "harness") :
    fits name value = true ↔ openValue value.toList ∧ '.' ∉ value.toList := by
  have hempty : value.isEmpty = true ↔ value.toList = [] := by simp
  simp only [fits, openValue, Bool.and_eq_true, Bool.not_eq_true', bne_iff_ne.mpr hname, Bool.true_or, and_true,
    ne_eq, ← hempty, Bool.not_eq_true, List.any_eq_false, Bool.or_eq_true, beq_iff_eq, not_or]
  constructor
  · rintro ⟨hsome, hall⟩
    exact ⟨⟨hsome, fun c hc => ⟨(hall c hc).1.2, (hall c hc).2⟩⟩, fun hdot => (hall '.' hdot).1.1 rfl⟩
  · rintro ⟨⟨hsome, hall⟩, hdot⟩
    exact ⟨hsome, fun c hc => ⟨⟨fun heq => hdot (heq ▸ hc), (hall c hc).1⟩, (hall c hc).2⟩⟩

/-- The halves of a segment are of one harness. -/
theorem common_harness {values : Values} {before after : List Part} (hbefore : Closed before)
    (hafter : Closed after) {h h' : String} (hh : h ∈ harnessPrefixes) (hh' : h' ∈ harnessPrefixes)
    (hvalue : before.any Part.isHarness = true → values["harness"]? = some h)
    (hvalue' : after.any Part.isHarness = true → values["harness"]? = some h') :
    ∃ k ∈ harnessPrefixes, ((before ++ after).any Part.isHarness = true → values["harness"]? = some k) ∧
      fixedText h before = fixedText k before ∧ fixedText h' after = fixedText k after := by
  rw [List.any_append]
  cases hsome : before.any Part.isHarness with
  | false => exact ⟨h', hh', by simpa using hvalue', fixedText_congr hbefore hsome h h', rfl⟩
  | true =>
    refine ⟨h, hh, fun _ => hvalue hsome, rfl, ?_⟩
    cases hsome' : after.any Part.isHarness with
    | false => exact fixedText_congr hafter hsome' h' h
    | true =>
      obtain rfl := Option.some.inj ((hvalue hsome).symm.trans (hvalue' hsome'))
      rfl

/-- A segment around an open placeholder filled is its text around the value. -/
theorem fillSegment_of_around {values : Values} {before after : List Part} {name : String} (hname : name ≠ "harness")
    (hbefore : Closed before) (hafter : Closed after) {node : List Char} :
    fillSegment values (before ++ .value name :: after) = some node ↔ ∃ h ∈ harnessPrefixes,
      ((before ++ after).any Part.isHarness = true → values["harness"]? = some h) ∧
      ∃ value, node = fixedText h before ++ value ++ fixedText h after ∧ openValue value ∧ '.' ∉ value ∧
        values[name]? = some (String.ofList value) := by
  rw [fillSegment_append]
  simp only [fillSegment_cons, fillPart, Option.bind_eq_some_iff, Option.map_eq_some_iff,
    Option.filter_eq_some_iff, fillSegment_of_closed hbefore, fillSegment_of_closed hafter, fits_open hname]
  constructor
  · rintro ⟨_, ⟨h, hh, hbeforeValue, rfl⟩, _, ⟨_, ⟨value, ⟨hvalue, hopen, hdot⟩, rfl⟩, _,
      ⟨h', hh', hafterValue, rfl⟩, rfl⟩, rfl⟩
    obtain ⟨k, hk, hkvalue, hfirst, hlast⟩ := common_harness hbefore hafter hh hh' hbeforeValue hafterValue
    refine ⟨k, hk, hkvalue, value.toList, ?_, hopen, hdot, by rw [hvalue, String.ofList_toList]⟩
    rw [hfirst, hlast, List.append_assoc]
  · rintro ⟨h, hh, hharness, value, rfl, hopen, hdot, hvalue⟩
    rw [List.any_append] at hharness
    refine ⟨_, ⟨h, hh, fun hsome => hharness (by simp [hsome]), rfl⟩, _,
      ⟨value, ⟨String.ofList value, ⟨hvalue, ?_⟩, String.toList_ofList⟩, _,
        ⟨h, hh, fun hsome => hharness (by simp [hsome]), rfl⟩, rfl⟩, ?_⟩
    · rw [String.toList_ofList]
      exact ⟨hopen, hdot⟩
    · rw [List.append_assoc]

/-- Two harnesses a segment reads as give the same values. -/
theorem readAs_unique {parts : List Part} (hone : (parts.filter Part.isOpen).length ≤ 1) {node : List Char}
    {h h' : String} (hh : h ∈ harnessPrefixes) (hh' : h' ∈ harnessPrefixes) {found found' : List (String × String)}
    (hread : readAs parts node h = some found) (hread' : readAs parts node h' = some found') : found = found' := by
  rcases closed_or_around hone with hclosed | ⟨before, name, after, rfl, hname, hbefore, hafter⟩
  · obtain ⟨rfl, rfl⟩ := (readAs_of_closed hclosed).mp hread
    obtain ⟨hnode', rfl⟩ := (readAs_of_closed hclosed).mp hread'
    cases hsome : parts.any Part.isHarness with
    | false => simp [harnessRow, hsome]
    | true =>
      have hsame : h = h' := harness_eq_of_leading hh hh' hclosed hsome List.prefix_rfl
        (hnode' ▸ List.prefix_rfl)
      rw [hsame]
  · obtain ⟨value, hnode, hopen, rfl⟩ := (readAs_of_around hname hbefore hafter).mp hread
    obtain ⟨value', hnode', hopen', rfl⟩ := (readAs_of_around hname hbefore hafter).mp hread'
    have hstart : fixedText h before <+: node := ⟨_, by rw [hnode, List.append_assoc]⟩
    have hstart' : fixedText h' before <+: node := ⟨_, by rw [hnode', List.append_assoc]⟩
    have hend : fixedText h after <:+ node := ⟨_, hnode.symm⟩
    have hend' : fixedText h' after <:+ node := ⟨_, hnode'.symm⟩
    have hsame : fixedText h before = fixedText h' before ∧ fixedText h after = fixedText h' after ∧
        harnessRow h (before ++ after) = harnessRow h' (before ++ after) := by
      cases hfirst : before.any Part.isHarness with
      | true =>
        obtain rfl := harness_eq_of_leading hh hh' hbefore hfirst hstart hstart'
        exact ⟨rfl, rfl, rfl⟩
      | false =>
        cases hlast : after.any Part.isHarness with
        | true =>
          obtain rfl := harness_eq_of_trailing hh hh' hafter hlast hend hend'
          exact ⟨rfl, rfl, rfl⟩
        | false =>
          refine ⟨fixedText_congr hbefore hfirst h h', fixedText_congr hafter hlast h h', ?_⟩
          simp [harnessRow, hfirst, hlast]
    obtain ⟨hbeforeText, hafterText, hrow⟩ := hsame
    rw [hnode, hbeforeText, hafterText] at hnode'
    have hvalue : value = value' := List.append_cancel_left (List.append_cancel_right hnode')
    rw [hvalue, hrow]

/-- What a segment is read as is what it is read as for any harness it reads as. -/
theorem readSegment_eq_some_iff {parts : List Part} (hone : (parts.filter Part.isOpen).length ≤ 1)
    {node : List Char} {found : List (String × String)} :
    readSegment parts node = some found ↔ ∃ h ∈ harnessPrefixes, readAs parts node h = some found := by
  constructor
  · exact List.exists_of_findSome?_eq_some
  · rintro ⟨h, hh, hread⟩
    cases hsegment : readSegment parts node with
    | none =>
      have hnone := List.findSome?_eq_none_iff.mp hsegment h hh
      rw [hread] at hnone
      contradiction
    | some other =>
      obtain ⟨h', hh', hread'⟩ := List.exists_of_findSome?_eq_some hsegment
      rw [readAs_unique hone hh' hh hread' hread]

/-- The rows name the placeholders of the parts, each once. -/
structure RowsOf (parts : List Part) (found : List (String × String)) : Prop where
  distinct : found.Pairwise fun a b => a.1 ≠ b.1
  named : ∀ name, name ∈ found.map Prod.fst ↔ name ∈ names parts

/-- The rows are among the values. -/
def Held (values : Values) (found : List (String × String)) : Prop := ∀ row ∈ found, values[row.1]? = some row.2

/-- The row of the harness is at most one. -/
theorem harnessRow_distinct (h : String) (parts : List Part) :
    (harnessRow h parts).Pairwise fun a b => a.1 ≠ b.1 := by
  unfold harnessRow
  split
  · exact List.pairwise_singleton _ _
  · exact List.Pairwise.nil

/-- The row of the harness is named when the parts have it. -/
theorem mem_fst_harnessRow {h : String} {parts : List Part} {name : String} :
    name ∈ (harnessRow h parts).map Prod.fst ↔ name = "harness" ∧ parts.any Part.isHarness = true := by
  unfold harnessRow
  split
  · rename_i hsome
    simp [hsome]
  · rename_i hnone
    simp [hnone]

/-- The row of the harness is the row of closed parts. -/
theorem rowsOf_closed {parts : List Part} (hclosed : Closed parts) (h : String) :
    RowsOf parts (harnessRow h parts) := by
  refine ⟨harnessRow_distinct h parts, fun name => ?_⟩
  rw [mem_fst_harnessRow, mem_names_of_closed hclosed]

/-- The row of the harness is held when the values have the harness. -/
theorem held_harnessRow {values : Values} {h : String} {parts : List Part} :
    Held values (harnessRow h parts) ↔ (parts.any Part.isHarness = true → values["harness"]? = some h) := by
  unfold Held harnessRow
  split
  · rename_i hsome
    simp [hsome]
  · rename_i hnone
    simp [hnone]

/-- The rows of parts around an open placeholder are its row and that of the harness. -/
theorem rowsOf_around {before after : List Part} {name : String} (hname : name ≠ "harness")
    (hbefore : Closed before) (hafter : Closed after) (h value : String) :
    RowsOf (before ++ .value name :: after) ((name, value) :: harnessRow h (before ++ after)) := by
  have hclosed : Closed (before ++ after) := fun part hpart =>
    (List.mem_append.mp hpart).elim (hbefore part) (hafter part)
  have hrows := rowsOf_closed hclosed h
  refine ⟨List.pairwise_cons.mpr ⟨fun ⟨other, found⟩ hrow => ?_, hrows.distinct⟩, fun other => ?_⟩
  · rw [(mem_harnessRow.mp hrow).2.1]
    exact hname
  · have hnames : names (before ++ .value name :: after) = names before ++ name :: names after := by
      rw [names_append]
      rfl
    rw [List.map_cons, List.mem_cons, hrows.named, hnames, names_append, List.mem_append, List.mem_append,
      List.mem_cons]
    tauto

/-- The rows of a reading name the placeholders of the segment. -/
theorem rowsOf_readSegment {parts : List Part} (hone : (parts.filter Part.isOpen).length ≤ 1) {node : List Char}
    {found : List (String × String)} (hread : readSegment parts node = some found) : RowsOf parts found := by
  obtain ⟨h, hh, hread⟩ := (readSegment_eq_some_iff hone).mp hread
  rcases closed_or_around hone with hclosed | ⟨before, name, after, rfl, hname, hbefore, hafter⟩
  · obtain ⟨-, rfl⟩ := (readAs_of_closed hclosed).mp hread
    exact rowsOf_closed hclosed h
  · obtain ⟨value, -, -, rfl⟩ := (readAs_of_around hname hbefore hafter).mp hread
    exact rowsOf_around hname hbefore hafter h _

/-- A segment is filled exactly with the values it is read as. -/
theorem fillSegment_iff_readSegment {values : Values} {parts : List Part}
    (hone : (parts.filter Part.isOpen).length ≤ 1) {node : List Char} (hdot : '.' ∉ node) :
    fillSegment values parts = some node ↔ ∃ found, readSegment parts node = some found ∧ Held values found := by
  simp only [readSegment_eq_some_iff hone]
  rcases closed_or_around hone with hclosed | ⟨before, name, after, rfl, hname, hbefore, hafter⟩
  · simp only [fillSegment_of_closed hclosed, readAs_of_closed hclosed]
    constructor
    · rintro ⟨h, hh, hvalue, hnode⟩
      exact ⟨_, ⟨h, hh, hnode, rfl⟩, held_harnessRow.mpr hvalue⟩
    · rintro ⟨_, ⟨h, hh, hnode, rfl⟩, hheld⟩
      exact ⟨h, hh, held_harnessRow.mp hheld, hnode⟩
  · simp only [fillSegment_of_around hname hbefore hafter, readAs_of_around hname hbefore hafter]
    constructor
    · rintro ⟨h, hh, hharness, value, hnode, hopen, _, hvalue⟩
      exact ⟨_, ⟨h, hh, value, hnode, hopen, rfl⟩,
        List.forall_mem_cons.mpr ⟨hvalue, held_harnessRow.mpr hharness⟩⟩
    · rintro ⟨_, ⟨h, hh, value, hnode, hopen, rfl⟩, hheld⟩
      obtain ⟨hvalue, hrow⟩ := List.forall_mem_cons.mp hheld
      refine ⟨h, hh, held_harnessRow.mp hrow, value, hnode, hopen, fun hmem => hdot ?_, hvalue⟩
      rw [hnode]
      simp [hmem]

/-- No value that fits has a dot. -/
theorem not_mem_of_fits {name value : String} (h : fits name value = true) : '.' ∉ value.toList := by
  intro hmem
  simp only [fits, Bool.and_eq_true, Bool.not_eq_true', List.any_eq_false, Bool.or_eq_true, beq_iff_eq, not_or] at h
  exact (h.1.2 '.' hmem).1.1 rfl

/-- A filled segment has no dot, when its text has none. -/
theorem not_mem_of_fillSegment {values : Values} {parts : List Part} {node : List Char}
    (hdotless : ∀ text, .literal text ∈ parts → '.' ∉ text) (h : fillSegment values parts = some node) :
    '.' ∉ node := by
  induction parts generalizing node with
  | nil =>
    obtain rfl := Option.some.inj h
    exact List.not_mem_nil
  | cons part rest ih =>
    rw [fillSegment_cons] at h
    obtain ⟨text, htext, h⟩ := Option.bind_eq_some_iff.mp h
    obtain ⟨more, hmore, rfl⟩ := Option.map_eq_some_iff.mp h
    have hrest := ih (fun t ht => hdotless t (List.mem_cons_of_mem part ht)) hmore
    have hfirst : '.' ∉ text := by
      cases part with
      | literal t =>
        obtain rfl := Option.some.inj htext
        exact hdotless t List.mem_cons_self
      | value name =>
        obtain ⟨value, hvalue, rfl⟩ := Option.map_eq_some_iff.mp htext
        exact not_mem_of_fits (Option.filter_eq_some_iff.mp hvalue).2
    exact fun hmem => (List.mem_append.mp hmem).elim hfirst hrest

end Segment

namespace Template

/-- The rows of segments with the pieces of a node they are to read. -/
def readRows (pairs : List (List Part × List Char)) : Option (List (List (String × String))) :=
  pairs.mapM fun (parts, node) => readSegment parts node

/-- The rows of a first segment and of the rest. -/
theorem readRows_cons (parts : List Part) (node : List Char) (rest : List (List Part × List Char)) :
    readRows ((parts, node) :: rest) =
      (readSegment parts node).bind fun found => (readRows rest).map fun rows => found :: rows := by
  simp only [readRows, List.mapM_cons]
  cases readSegment parts node with
  | none => rfl
  | some found => cases List.mapM (fun (pair : List Part × List Char) => readSegment pair.1 pair.2) rest <;> rfl

/-- Reading segment by segment puts the rows of each into the values. -/
theorem foldlM_readSegment (pairs : List (List Part × List Char)) (values : Values) :
    pairs.foldlM (fun values (parts, node) => (readSegment parts node).map fun found =>
      values.insertMany found) values =
      (readRows pairs).map fun rows => values.insertMany rows.flatten := by
  induction pairs generalizing values with
  | nil => simp [readRows]
  | cons pair rest ih =>
    obtain ⟨parts, node⟩ := pair
    rw [List.foldlM_cons, readRows_cons]
    cases hfound : readSegment parts node with
    | none => simp [hfound]
    | some found =>
      simp only [hfound, Option.map_some, Option.bind_eq_bind, Option.bind_some, ih]
      cases readRows rest with
      | none => rfl
      | some rows => simp [ExtTreeMap.insertMany_append]

/-- A template reads the nodes that are read segment by segment. -/
theorem read_eq_some_iff {t : Template} {p : String} {values : Values} :
    t.read p = some values ↔ (p.toList.splitOn '.').length = t.segments.length ∧
      ∃ rows, readRows (t.segments.zip (p.toList.splitOn '.')) = some rows ∧
        ExtTreeMap.ofList rows.flatten = values := by
  simp only [read, foldlM_readSegment, ExtTreeMap.ofList_eq_insertMany_empty]
  split
  · rename_i hlength
    simp [hlength]
  · rename_i hlength
    rw [not_not] at hlength
    simp [hlength]

/-- Segments are filled exactly with the values they are read as. -/
theorem mapM_fillSegment_iff {values : Values} {segments : List (List Part)} {nodes : List (List Char)}
    (hone : ∀ parts ∈ segments, (parts.filter Part.isOpen).length ≤ 1) (hdot : ∀ node ∈ nodes, '.' ∉ node) :
    segments.mapM (fillSegment values) = some nodes ↔ nodes.length = segments.length ∧
      ∃ rows, readRows (segments.zip nodes) = some rows ∧ Held values rows.flatten := by
  induction segments generalizing nodes with
  | nil => cases nodes <;> simp [readRows, Held]
  | cons parts rest ih =>
    have hfirst := hone parts List.mem_cons_self
    cases nodes with
    | nil =>
      simp [Option.bind_eq_some_iff]
    | cons node nodes =>
      have hdotRest : ∀ other ∈ nodes, '.' ∉ other := fun other hother => hdot other (List.mem_cons_of_mem _ hother)
      have hrest := ih (fun other hother => hone other (List.mem_cons_of_mem _ hother)) hdotRest
      have hsegment : fillSegment values parts = some node ↔
          ∃ found, readSegment parts node = some found ∧ Held values found :=
        fillSegment_iff_readSegment hfirst (hdot node List.mem_cons_self)
      have hcons : (parts :: rest).mapM (fillSegment values) = some (node :: nodes) ↔
          fillSegment values parts = some node ∧ rest.mapM (fillSegment values) = some nodes := by
        simp [List.mapM_cons, Option.bind_eq_some_iff]
      rw [hcons, hsegment, hrest, List.zip_cons_cons, readRows_cons, List.length_cons, List.length_cons]
      simp only [Option.bind_eq_some_iff, Option.map_eq_some_iff]
      constructor
      · rintro ⟨⟨found, hfound, hheld⟩, hlength, rows, hrows, hheld'⟩
        refine ⟨congrArg (· + 1) hlength, found :: rows, ⟨found, hfound, rows, hrows, rfl⟩, fun row hrow => ?_⟩
        rw [List.flatten_cons] at hrow
        exact (List.mem_append.mp hrow).elim (hheld row) (hheld' row)
      · rintro ⟨hlength, _, ⟨found, hfound, rows, hrows, rfl⟩, hheld⟩
        rw [List.flatten_cons] at hheld
        exact ⟨⟨found, hfound, fun row hrow => hheld row (List.mem_append_left _ hrow)⟩, by omega, rows, hrows,
          fun row hrow => hheld row (List.mem_append_right _ hrow)⟩

/-- The rows of all segments name the placeholders of the template, each once. -/
theorem rowsOf_readRows {segments : List (List Part)} {nodes : List (List Char)}
    {rows : List (List (String × String))} (hlength : nodes.length = segments.length)
    (hone : ∀ parts ∈ segments, (parts.filter Part.isOpen).length ≤ 1) (hdistinct : (names segments.flatten).Nodup)
    (hread : readRows (segments.zip nodes) = some rows) : RowsOf segments.flatten rows.flatten := by
  induction segments generalizing nodes rows with
  | nil =>
    obtain rfl : rows = [] := by simpa [readRows, eq_comm] using hread
    exact ⟨List.Pairwise.nil, fun name => by simp [names]⟩
  | cons parts rest ih =>
    cases nodes with
    | nil => simp at hlength
    | cons node nodes =>
      rw [List.zip_cons_cons, readRows_cons] at hread
      obtain ⟨found, hfound, hread⟩ := Option.bind_eq_some_iff.mp hread
      obtain ⟨more, hmore, rfl⟩ := Option.map_eq_some_iff.mp hread
      rw [List.flatten_cons, names_append, List.nodup_append] at hdistinct
      obtain ⟨-, hrestDistinct, hapart⟩ := hdistinct
      have hfirst := rowsOf_readSegment (hone parts List.mem_cons_self) hfound
      have hrest := ih (by simpa using hlength) (fun other hother => hone other (List.mem_cons_of_mem _ hother))
        hrestDistinct hmore
      refine ⟨?_, fun name => ?_⟩
      · rw [List.flatten_cons, List.pairwise_append]
        refine ⟨hfirst.distinct, hrest.distinct, fun row hrow other hother => ?_⟩
        exact hapart _ ((hfirst.named row.1).mp (List.mem_map_of_mem hrow)) _
          ((hrest.named other.1).mp (List.mem_map_of_mem hother))
      · rw [List.flatten_cons, List.flatten_cons, List.map_append, names_append, List.mem_append, List.mem_append,
          hfirst.named, hrest.named]

/-- The placeholders a template contains are its names. -/
theorem contains_iff {t : Template} {name : String} : t.contains name = true ↔ name ∈ names t.segments.flatten := by
  simp only [contains, List.any_eq_true, beq_iff_eq, exists_eq_right, names, List.mem_filterMap]
  constructor
  · exact fun hmem => ⟨.value name, hmem, rfl⟩
  · rintro ⟨part, hmem, hname⟩
    cases part with
    | literal text => contradiction
    | value other =>
      obtain rfl := Option.some.inj hname
      exact hmem

/-- A node that values fill a template to reads as those of the values that the template names. -/
theorem read_of_fill {t : Template} (ht : t.WellFormed) {values : Values} {p : String}
    (hfill : t.fill values = some p) :
    t.read p = some (values.filter fun name _ => t.contains name) := by
  obtain ⟨nodes, hnodes, rfl⟩ := Option.map_eq_some_iff.mp hfill
  have hdot : ∀ node ∈ nodes, '.' ∉ node := fun node hnode => by
    obtain ⟨parts, hparts, hsegment⟩ := exists_of_mem_mapM hnodes hnode
    exact not_mem_of_fillSegment (ht.dotless parts hparts) hsegment
  obtain ⟨hlength, rows, hrows, hheld⟩ := (mapM_fillSegment_iff ht.oneOpen hdot).mp hnodes
  have hsome : nodes ≠ [] := fun hnil => ht.nonempty (List.length_eq_zero_iff.mp (by rw [← hlength, hnil]; rfl))
  have hall := rowsOf_readRows hlength ht.oneOpen ht.distinct hrows
  rw [read_eq_some_iff, String.toList_ofList, List.splitOn_intercalate '.' hdot hsome]
  refine ⟨hlength, rows, hrows, ExtTreeMap.ext_getElem? fun name => Option.ext fun value => ?_⟩
  rw [getElem?_ofList_eq_some hall.distinct, getElem?_filter_eq_some, contains_iff, ← hall.named]
  constructor
  · exact fun hrow => ⟨hheld (name, value) hrow, List.mem_map_of_mem hrow⟩
  · rintro ⟨hvalue, hnamed⟩
    obtain ⟨⟨other, found⟩, hrow, rfl⟩ := List.mem_map.mp hnamed
    obtain rfl := Option.some.inj ((hheld _ hrow).symm.trans hvalue)
    exact hrow

/-- Values that a node reads as fill the template to that node. -/
theorem fill_of_read {t : Template} (ht : t.WellFormed) {values : Values} {p : String}
    (hread : t.read p = some values) :
    t.fill values = some p := by
  obtain ⟨hlength, rows, hrows, rfl⟩ := read_eq_some_iff.mp hread
  have hdistinct := (rowsOf_readRows hlength ht.oneOpen ht.distinct hrows).distinct
  have hheld : Held (ExtTreeMap.ofList rows.flatten) rows.flatten := fun row hrow =>
    (getElem?_ofList_eq_some hdistinct).mpr hrow
  have hdot : ∀ node ∈ p.toList.splitOn '.', '.' ∉ node := fun node hnode => not_mem_of_mem_splitOn hnode
  have hfill := (mapM_fillSegment_iff ht.oneOpen hdot).mpr ⟨hlength, rows, hrows, hheld⟩
  rw [fill, hfill, Option.map_some, List.intercalate_splitOn, String.ofList_toList]

/-- A node that values fill a parsed template to reads as those of the values that the template names, and the values
that a node reads as fill the template to that node. -/
theorem fill_read_round_trip {text : String} {t : Template} (hparse : Template.parse text = .ok t) (values : Values)
    (p : String) :
    (t.fill values = some p → t.read p = some (values.filter fun name _ => t.contains name)) ∧
      (t.read p = some values → t.fill values = some p) :=
  ⟨read_of_fill (parse_wellFormed hparse), fill_of_read (parse_wellFormed hparse)⟩

/-- A template with literal text, a harness after an open placeholder and several segments. -/
def sampleTemplate : Template :=
  ⟨[[.literal "repo-".toList, .value "repo"],
    [.literal "job-".toList, .value "branch", .literal "-".toList, .value "harness"],
    [.value "session"]]⟩

/-- Filling the template with the values of a node, one of them unused, reads back the others. -/
theorem fill_read_round_trip_sample :
    let values : Values := ExtTreeMap.ofList
      [("repo", "r"), ("branch", "feat"), ("harness", "codex"), ("session", "S"), ("agent", "a1")]
    sampleTemplate.read "repo-r.job-feat-codex.S" = some (values.filter fun name _ => sampleTemplate.contains name) :=
  (@fill_read_round_trip "repo-\x7brepo\x7d.job-\x7bbranch\x7d-\x7bharness\x7d.\x7bsession\x7d" sampleTemplate
    (by decide +kernel) _ _).1
    (by decide +kernel)

end Template

end Devkit.Config
