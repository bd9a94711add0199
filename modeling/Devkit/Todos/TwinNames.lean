import Devkit.Todos.TwinStores

/-!
# The ids of the two stores

A uuid prints with dashes, so it is no id of the built-in store, and the taskchampion store finds the
todo of a uuid by what it prints. Where ids correspond one to one, translating them is injective on
the ids returned and the uuids no add returned.
-/

namespace Devkit.Todos

open Devkit.Library
open Std

namespace Uuid

/-- A uuid prints as as many characters as the pattern has. -/
theorem length_text (uuid : Uuid) : uuid.text.toList.length = 36 := by
  have hspelled := uuid.spelled
  rw [matchesPattern, Bool.and_eq_true, beq_iff_eq] at hspelled
  exact hspelled.1

/-- Each character a uuid prints as passes its test. -/
theorem test_getElem (uuid : Uuid) {i : ℕ} {c : Char} {test : Char → Bool} (hc : uuid.text.toList[i]? = some c)
    (htest : uuidPattern[i]? = some test) : test c = true := by
  have hspelled := uuid.spelled
  rw [matchesPattern, Bool.and_eq_true, List.all_eq_true] at hspelled
  refine hspelled.2 (c, test) (List.mem_of_getElem? (i := i) ?_)
  rw [List.getElem?_zip_eq_some]
  exact ⟨hc, htest⟩

/-- A uuid prints with a dash. -/
theorem dash_mem_text (uuid : Uuid) : '-' ∈ uuid.text.toList := by
  have hlength : 8 < uuid.text.toList.length := by rw [length_text]; decide
  have hdash := uuid.test_getElem (List.getElem?_eq_getElem hlength) (show uuidPattern[8]? = some (· == '-') by rfl)
  rw [← beq_iff_eq.mp hdash]
  exact List.getElem_mem hlength

/-- What a uuid prints as is long enough and made of digits and dashes. -/
theorem isUuidPrefix_text (uuid : Uuid) : isUuidPrefix uuid.text = true := by
  have hlength : uuid.text.length = 36 := by rw [← String.length_toList, length_text]
  rw [isUuidPrefix, hlength, Bool.and_eq_true, List.all_eq_true]
  refine ⟨by decide, fun c hc => ?_⟩
  obtain ⟨i, hi, rfl⟩ := List.mem_iff_getElem.mp hc
  have hbound : i < uuidPattern.length := by rw [length_text] at hi; exact hi
  have htest := uuid.test_getElem (List.getElem?_eq_getElem hi) (List.getElem?_eq_getElem hbound)
  have hcases : uuidPattern[i] = isHexDigit ∨ uuidPattern[i] = (· == '-') := by
    have hmem : uuidPattern[i] ∈ uuidPattern := List.getElem_mem hbound
    simp only [uuidPattern, List.mem_append, List.mem_cons, List.mem_replicate] at hmem
    tauto
  cases hcases with
  | inl hhex =>
    rw [hhex] at htest
    exact Bool.or_eq_true_iff.mpr (Or.inr htest)
  | inr hdash =>
    rw [hdash] at htest
    exact Bool.or_eq_true_iff.mpr (Or.inl htest)

/-- A uuid prints as no id of the built-in store. -/
theorem text_ne_idOf (uuid : Uuid) (key : ℕ) : uuid.text ≠ idOf key := by
  intro heq
  have hdash := uuid.dash_mem_text
  rw [heq, idOf, Nat.toList_repr] at hdash
  exact absurd (Nat.isDigit_of_mem_toDigits (by decide) (by decide) hdash) (by decide)

end Uuid

/-- A uuid finds the todo of its task by what it prints. -/
theorem find_text (lib : TaskLibraries) (r : Replica) (uuid : Uuid) :
    r.find lib uuid.text = .ok (r.tasks[uuid]?.bind (todoFrom lib uuid)) := by
  rw [Replica.find, uuid.isUuidPrefix_text, lib.tryParse_text]
  rfl

/-- The ids the stores returned correspond one to one: each of the built-in store's, all below a bound, to a uuid. -/
structure OneToOne (made : ExtTreeMap String String) (bound : ℕ) : Prop where
  returned : ∀ {id text : String}, made[id]? = some text → ∃ (key : ℕ) (uuid : Uuid), id = idOf key ∧ key < bound ∧
    text = uuid.text
  injective : ∀ {id other text : String}, made[id]? = some text → made[other]? = some text → id = other

section Translate

variable {made : ExtTreeMap String String} {bound : ℕ}

/-- An id that was returned is translated to the one that corresponds. -/
theorem translate_of_made {id text : String} (h : made[id]? = some text) : translate made id = text := by
  rw [translate, h]
  rfl

/-- A text that was not returned stays. -/
theorem translate_of_not_mem {id : String} (h : id ∉ made) : translate made id = id := by
  rw [translate, ExtTreeMap.getElem?_eq_none h]
  rfl

/-- An id that was returned corresponds to a uuid. -/
theorem OneToOne.uuid_of_mem (h : OneToOne made bound) {id : String} (hid : id ∈ made) :
    ∃ uuid : Uuid, made[id]? = some uuid.text := by
  obtain ⟨text, htext⟩ := Option.isSome_iff_exists.mp (ExtTreeMap.mem_iff_isSome_getElem?.mp hid)
  obtain ⟨_, uuid, _, _, rfl⟩ := h.returned htext
  exact ⟨uuid, htext⟩

/-- A uuid that no add returned stays. -/
theorem OneToOne.translate_unreturned (h : OneToOne made bound) {text : String} (hunreturned : Unreturned made text) :
    translate made text = text := by
  refine translate_of_not_mem fun hmem => ?_
  obtain ⟨uuid, rfl, _⟩ := hunreturned
  obtain ⟨other, hother⟩ := h.uuid_of_mem hmem
  obtain ⟨key, _, hkey, _⟩ := h.returned hother
  exact uuid.text_ne_idOf key hkey

/-- Ids that were returned and uuids no add returned are translated to uuids. -/
theorem OneToOne.translate_eq_text (h : OneToOne made bound) {id : String} (hid : id ∈ made ∨ Unreturned made id) :
    ∃ uuid : Uuid, translate made id = uuid.text := by
  cases hid with
  | inl hmem =>
    obtain ⟨uuid, huuid⟩ := h.uuid_of_mem hmem
    exact ⟨uuid, translate_of_made huuid⟩
  | inr hunreturned =>
    have hsame := h.translate_unreturned hunreturned
    obtain ⟨uuid, heq, _⟩ := hunreturned
    exact ⟨uuid, hsame.trans heq⟩

/-- Different ids that were returned, or uuids no add returned, stay different. -/
theorem OneToOne.translate_inj (h : OneToOne made bound) {id other : String} (hid : id ∈ made ∨ Unreturned made id)
    (hother : other ∈ made ∨ Unreturned made other) : translate made id = translate made other ↔ id = other := by
  refine ⟨fun heq => ?_, fun heq => heq ▸ rfl⟩
  have hapart : ∀ {id other : String}, id ∈ made → Unreturned made other →
      translate made id ≠ translate made other := by
    intro id other hmem hunreturned heq
    obtain ⟨uuid, huuid⟩ := h.uuid_of_mem hmem
    rw [h.translate_unreturned hunreturned, translate_of_made huuid] at heq
    obtain ⟨named, rfl, hfree⟩ := hunreturned
    exact hfree id (heq ▸ huuid)
  cases hid with
  | inl hmem =>
    cases hother with
    | inl hmem' =>
      obtain ⟨uuid, huuid⟩ := h.uuid_of_mem hmem
      obtain ⟨uuid', huuid'⟩ := h.uuid_of_mem hmem'
      rw [translate_of_made huuid, translate_of_made huuid'] at heq
      exact h.injective huuid (heq ▸ huuid')
    | inr hunreturned => exact absurd heq (hapart hmem hunreturned)
  | inr hunreturned =>
    cases hother with
    | inl hmem => exact absurd heq.symm (hapart hmem hunreturned)
    | inr hunreturned' => rwa [h.translate_unreturned hunreturned, h.translate_unreturned hunreturned'] at heq

end Translate

end Devkit.Todos
