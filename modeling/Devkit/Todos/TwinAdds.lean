import Devkit.Todos.TwinRemovals

/-!
# Adds on both stores

An add gives the new todo the next key in one store and a uuid no add returned in the other. What was
translated before is translated as before, so the todos there keep their twins.
-/

namespace Devkit.Todos

open Devkit.Library
open Std

/-- A text other than the new id is translated as before. -/
theorem translate_insert {made : ExtTreeMap String String} {id text named : String} (hne : named ≠ id) :
    translate (made.insert id text) named = translate made named := by
  rw [translate, getElem?_insert_eq, if_neg hne.symm]
  rfl

section Extend

variable {lib : TaskLibraries} {s : Twins} {key : ℕ} {uuid : Uuid}

/-- Ids returned so far are not the next one. -/
theorem Simulates.made_ne (h : Simulates lib s) (hkey : s.doc.nextId ≤ key) {id : String} (hid : id ∈ s.made) :
    id ≠ idOf key := by
  obtain ⟨text, htext⟩ := Option.isSome_iff_exists.mp (ExtTreeMap.mem_iff_isSome_getElem?.mp hid)
  obtain ⟨other, _, rfl, hbound, _⟩ := h.names.returned htext
  exact fun heq => (hbound.trans_le hkey).ne (idOf_inj.mp heq)

/-- Ids returned so far, and uuids no add returned, are not the next id. -/
theorem Simulates.known_ne (h : Simulates lib s) (hkey : s.doc.nextId ≤ key) {id : String}
    (hid : id ∈ s.made ∨ Unreturned s.made id) : id ≠ idOf key := by
  cases hid with
  | inl hmade => exact h.made_ne hkey hmade
  | inr hunreturned =>
    obtain ⟨other, rfl, _⟩ := hunreturned
    exact other.text_ne_idOf key

/-- The next id and a uuid no add returned correspond one to one with those before. -/
theorem Simulates.names_insert (h : Simulates lib s) (hkey : s.doc.nextId ≤ key) (hunused : s.Unused uuid) :
    OneToOne (s.made.insert (idOf key) uuid.text) (key + 1) := by
  refine ⟨fun {id text} hid => ?_, fun {id other text} hid hother => ?_⟩
  · rw [getElem?_insert_eq] at hid
    split at hid
    · rename_i heq
      exact ⟨key, uuid, heq.symm, key.lt_succ_self, (Option.some.inj hid).symm⟩
    · obtain ⟨before, old, hid, hbound, htext⟩ := h.names.returned hid
      exact ⟨before, old, hid, (hbound.trans_le hkey).trans key.lt_succ_self, htext⟩
  · rw [getElem?_insert_eq] at hid hother
    split at hid
    · rename_i heq
      split at hother
      · rename_i heq'
        exact heq.symm.trans heq'
      · exact absurd ((Option.some.inj hid).symm ▸ hother) (hunused.1 other)
    · split at hother
      · exact absurd ((Option.some.inj hother).symm ▸ hid) (hunused.1 id)
      · exact h.names.injective hid hother

/-- The todos of before keep their twins once an id is given out. -/
theorem Twin.insert {todo twin : Todo} (htwin : Twin s.made todo twin) {id text : String} (hid : todo.id ≠ id)
    (hparent : ∀ parent, todo.parent = some parent → parent ≠ id) (hblockers : ∀ named ∈ todo.blockedBy, named ≠ id) :
    Twin (s.made.insert id text) todo twin := by
  refine { htwin with
    id := ?_
    parent := ?_
    blockedBy := fun blocker => ?_ }
  · rw [getElem?_insert_eq, if_neg hid.symm]
    exact htwin.id
  · rw [htwin.parent]
    cases hof : todo.parent with
    | none => rfl
    | some parent => rw [Option.map_some, Option.map_some, translate_insert (hparent parent hof)]
  · rw [htwin.blockedBy]
    refine exists_congr fun named => and_congr_right fun hnamed => ?_
    rw [translate_insert (hblockers named hnamed)]

/-- A todo added to both stores under the next key and a uuid not used before keeps them in step. -/
theorem Simulates.extend (h : Simulates lib s) (hkey : s.doc.nextId ≤ key) (hunused : s.Unused uuid) {todo twin : Todo}
    {task : Properties} (hid : todo.id = idOf key) (hparent : ∀ id, todo.parent = some id → id ∈ s.made)
    (hblockers : todo.blockedBy = [])
    (hticket : ∀ ticket, todo.ticket = some ticket → ticketTodoUuid lib "" ticket.tracker ticket.key = uuid)
    (hread : ReadAs lib uuid task twin) (htwin : Twin (s.made.insert (idOf key) uuid.text) todo twin) :
    Simulates lib ⟨⟨key + 1, s.doc.todos.insert key todo⟩, ⟨s.replica.tasks.insert uuid task⟩,
      s.made.insert (idOf key) uuid.text⟩ := by
  have hcases : ∀ {other : ℕ} {held : Todo}, (s.doc.todos.insert key todo)[other]? = some held →
      (other = key ∧ held = todo) ∨ (other ≠ key ∧ s.doc.todos[other]? = some held) := by
    intro other held hheld
    rw [getElem?_insert_eq] at hheld
    split at hheld
    · rename_i heq
      exact Or.inl ⟨heq.symm, (Option.some.inj hheld).symm⟩
    · rename_i hne
      exact Or.inr ⟨fun heq => hne heq.symm, hheld⟩
  have hmade : ∀ {id : String}, id ∈ s.made → id ∈ s.made.insert (idOf key) uuid.text := fun hmem =>
    ExtTreeMap.mem_insert.mpr (Or.inr hmem)
  have hold : ∀ {other : ℕ} {held : Todo}, s.doc.todos[other]? = some held → held.id ≠ idOf key := by
    intro other held hheld heq
    rw [h.numbered.keyed hheld, idOf_inj] at heq
    exact ((h.numbered.counted hheld).trans_le hkey).ne heq
  refine ⟨⟨fun {other held} hheld => ?_, fun {other held} hheld => ?_⟩, h.names_insert hkey hunused,
    fun {other held} hheld => ?_, fun {other held} hheld => ?_, fun {other held} hheld parent hunder => ?_,
    fun {other held} hheld blocker hblocker => ?_, fun {other held} hheld ticket hof => ?_⟩
  · rcases hcases hheld with ⟨rfl, rfl⟩ | ⟨_, hbefore⟩
    · exact hid
    · exact h.numbered.keyed hbefore
  · rcases hcases hheld with ⟨rfl, rfl⟩ | ⟨_, hbefore⟩
    · exact other.lt_succ_self
    · exact ((h.numbered.counted hbefore).trans_le hkey).trans key.lt_succ_self
  · rcases hcases hheld with ⟨rfl, rfl⟩ | ⟨_, hbefore⟩
    · exact ⟨uuid, task, twin, (getElem?_insert_eq _ uuid uuid task).trans (if_pos rfl), hread, htwin⟩
    · obtain ⟨old, task', twin', hfound⟩ := h.found hbefore
      refine ⟨old, task', twin', ?_, hfound.read, hfound.twins.insert (hold hbefore)
        (fun parent hunder => h.made_ne hkey (h.parent hbefore parent hunder))
        fun named hnamed => h.known_ne hkey (h.blocker hbefore named hnamed)⟩
      change (s.replica.tasks.insert uuid task)[old]? = some task'
      rw [getElem?_insert_eq, if_neg, hfound.stored]
      rintro rfl
      exact hunused.1 held.id hfound.made
  · change (s.replica.tasks.insert uuid task)[other]? = some held at hheld
    rw [getElem?_insert_eq] at hheld
    split at hheld
    · rename_i heq
      refine ⟨key, todo, (getElem?_insert_eq _ key key todo).trans (if_pos rfl), ?_⟩
      change (s.made.insert (idOf key) uuid.text)[todo.id]? = _
      rw [hid, getElem?_insert_eq, if_pos rfl, heq]
    · obtain ⟨before, old, hbefore, hnamed⟩ := h.task hheld
      refine ⟨before, old, ?_, ?_⟩
      · change (s.doc.todos.insert key todo)[before]? = some old
        rw [getElem?_insert_eq, if_neg, hbefore]
        exact ((h.numbered.counted hbefore).trans_le hkey).ne'
      · change (s.made.insert (idOf key) uuid.text)[old.id]? = _
        rw [getElem?_insert_eq, if_neg (hold hbefore).symm, hnamed]
  · rcases hcases hheld with ⟨rfl, rfl⟩ | ⟨_, hbefore⟩
    · exact hmade (hparent parent hunder)
    · exact hmade (h.parent hbefore parent hunder)
  · rcases hcases hheld with ⟨rfl, rfl⟩ | ⟨_, hbefore⟩
    · rw [hblockers] at hblocker
      contradiction
    · cases h.blocker hbefore blocker hblocker with
      | inl hreturned => exact Or.inl (hmade hreturned)
      | inr hunreturned =>
        obtain ⟨old, rfl, hfree⟩ := hunreturned
        refine Or.inr ⟨old, rfl, fun id => ?_⟩
        change (s.made.insert (idOf key) uuid.text)[id]? ≠ _
        rw [getElem?_insert_eq]
        split
        · intro heq
          exact hunused.2 held (mem_rows.mpr ⟨other, hbefore⟩) (Option.some.inj heq ▸ hblocker)
        · exact hfree id
  · change (s.made.insert (idOf key) uuid.text)[held.id]? = _
    rcases hcases hheld with ⟨rfl, rfl⟩ | ⟨_, hbefore⟩
    · rw [hid, getElem?_insert_eq, if_pos rfl, hticket ticket hof]
    · rw [getElem?_insert_eq, if_neg (hold hbefore).symm]
      exact h.ticket hbefore ticket hof

end Extend

end Devkit.Todos
