import Devkit.Todos.SyncTracking

/-!
# A sync alone

The calls of a sync that nothing else comes between land its plan as one pass does.
-/

namespace Devkit.Todos

open Devkit.Library
open Std

namespace Syncs

/-- Several calls of one client's sync. -/
def runClient (text : Unicode) (s : Syncs) (client : ℕ) (instants : List Instant) : Syncs :=
  runFrom (step text) s (instants.map (.next client))

/-- The calls of a sync, one after the other. -/
theorem runClient_append (text : Unicode) (s : Syncs) (client : ℕ) (first second : List Instant) :
    s.runClient text client (first ++ second) = (s.runClient text client first).runClient text client second := by
  rw [runClient, List.map_append, runFrom_append]
  rfl

/-- The first call of a sync under way, then the others. -/
theorem runClient_cons (text : Unicode) {s : Syncs} {client : ℕ} {sync : Sync} (hsync : s.syncs client = some sync)
    (now : Instant) (rest : List Instant) :
    s.runClient text client (now :: rest) = (s.next client now sync).runClient text client rest := by
  rw [runClient, List.map_cons, runFrom_cons]
  simp only [step, hsync]
  rfl

/-- The adds of a sync alone land as those of one pass. -/
theorem adds_alone (text : Unicode) (clock : ℕ → Instant) (client : ℕ) (adds : List NewTodo) {s : Syncs}
    {sync : Sync} (hsync : s.syncs client = some sync) (hadds : sync.adds = adds) (call : ℕ) :
    ∃ instants, (s.runClient text client instants).doc = (landAdds clock call ⟨s.doc, sync.ids⟩ adds).1.doc ∧
      match landAdds clock call ⟨s.doc, sync.ids⟩ adds with
      | (_, some _) => (s.runClient text client instants).syncs client = none
      | (landing, none) => ∃ made, (s.runClient text client instants).syncs client =
          some { sync with adds := [], ids := landing.ids, made } := by
  induction adds generalizing s sync call with
  | nil => exact ⟨[], rfl, sync.made, by rw [← hadds]; exact hsync⟩
  | cons add rest ih =>
    rw [landAdds]
    cases hland : landAdd (clock call) ⟨s.doc, sync.ids⟩ add with
    | error failure =>
      have hstep : s.next client (clock call) sync = s.withSync client none := by
        simp only [Syncs.next, hadds, nextAdd, hland]
      refine ⟨[clock call], ?_, ?_⟩
      · rw [runClient_cons text hsync, hstep]
        rfl
      · rw [runClient_cons text hsync, hstep]
        exact Function.update_self ..
    | ok landing =>
      obtain ⟨doc, ids⟩ := landing
      obtain ⟨made, hstep⟩ : ∃ made, s.next client (clock call) sync =
          { s.withSync client (some { sync with adds := rest, ids, made }) with doc } := by
        simp only [Syncs.next, hadds, nextAdd, hland]
        exact ⟨_, rfl⟩
      have hnext : (s.next client (clock call) sync).syncs client =
          some { sync with adds := rest, ids, made } := by
        rw [hstep]
        exact Function.update_self ..
      obtain ⟨instants, hdoc, hend⟩ := ih hnext rfl (call + 1)
      refine ⟨clock call :: instants, ?_⟩
      rw [runClient_cons text hsync]
      rw [hstep] at hdoc hend ⊢
      exact ⟨hdoc, hend⟩

/-- The edits of a sync alone land as those of one pass. -/
theorem edits_alone (text : Unicode) (clock : ℕ → Instant) (client : ℕ) (edits : List PlannedEdit) {s : Syncs}
    {sync : Sync} (hsync : s.syncs client = some sync) (hadds : sync.adds = []) (hedits : sync.edits = edits)
    (hchecked : sync.checked = false) (call : ℕ) :
    ∃ instants, (s.runClient text client instants).doc =
        (landEdits clock sync.plannedOn sync.ids call s.doc edits).1 ∧
      (s.runClient text client instants).syncs client = none := by
  induction edits generalizing s sync call with
  | nil =>
    have hstep : s.next client (clock call) sync = s.withSync client none := by
      simp only [Syncs.next, hadds, hedits]
    refine ⟨[clock call], ?_, ?_⟩
    · rw [runClient_cons text hsync, hstep]
      rfl
    · rw [runClient_cons text hsync, hstep]
      exact Function.update_self ..
  | cons edit rest ih =>
    -- The first call reads the todo of the edit: it ends the sync, skips the edit or lets it land.
    rw [landEdits, landEdit]
    cases hresolve : edit.resolve sync.ids with
    | error failure =>
      have hstep : s.next client (clock call) sync = s.withSync client none := by
        simp only [Syncs.next, hadds, hedits, nextEdit, hresolve]
      refine ⟨[clock call], ?_, ?_⟩
      · rw [runClient_cons text hsync, hstep]
        rfl
      · rw [runClient_cons text hsync, hstep]
        exact Function.update_self ..
    | ok resolved =>
      by_cases hskip : (sync.plannedOn[edit.key]?.any fun seen => movedSince s.doc seen edit.change) = true
      · have hstep : s.next client (clock call) sync =
            s.withSync client (some { sync with edits := rest }) := by
          simp only [Syncs.next, hadds, hedits, nextEdit, hresolve, hchecked, hskip, Bool.false_eq_true, if_true,
            if_false]
        have hnext : (s.next client (clock call) sync).syncs client = some { sync with edits := rest } := by
          rw [hstep]
          exact Function.update_self ..
        obtain ⟨instants, hdoc, hend⟩ := ih hnext hadds rfl hchecked (call + 1)
        refine ⟨clock call :: instants, ?_⟩
        rw [runClient_cons text hsync]
        rw [hstep] at hdoc hend ⊢
        simp only [hskip, if_true]
        exact ⟨hdoc, hend⟩
      · have hread : s.next client (clock call) sync =
            s.withSync client (some { sync with checked := true }) := by
          simp only [Syncs.next, hadds, hedits, nextEdit, hresolve, hchecked, hskip, Bool.false_eq_true, if_false]
        have hready : (s.withSync client (some { sync with checked := true })).syncs client =
            some { sync with checked := true } :=
          Function.update_self ..
        simp only [hskip, Bool.false_eq_true, if_false]
        cases happly : s.doc.apply (clock call) resolved with
        | error refusal =>
          have hfail : (s.withSync client (some { sync with checked := true })).next client (clock call)
              { sync with checked := true } =
                (s.withSync client (some { sync with checked := true })).withSync client none := by
            simp only [Syncs.next, hadds, hedits, nextEdit, hresolve, withSync, happly, if_true]
          refine ⟨[clock call, clock call], ?_, ?_⟩
          · rw [runClient_cons text hsync, hread, runClient_cons text hready, hfail]
            rfl
          · rw [runClient_cons text hsync, hread, runClient_cons text hready, hfail]
            exact Function.update_self ..
        | ok landed =>
          obtain ⟨doc, changes⟩ := landed
          have hland : (s.withSync client (some { sync with checked := true })).next client (clock call)
              { sync with checked := true } = { (s.withSync client (some { sync with checked := true })).withSync
                client (some { sync with edits := rest, checked := false }) with doc } := by
            simp only [Syncs.next, hadds, hedits, nextEdit, hresolve, withSync, happly, if_true]
          have hnext : { (s.withSync client (some { sync with checked := true })).withSync
              client (some { sync with edits := rest, checked := false }) with doc }.syncs client =
                some { sync with edits := rest, checked := false } :=
            Function.update_self ..
          obtain ⟨instants, hdoc, hend⟩ := ih hnext hadds rfl rfl (call + 1)
          refine ⟨clock call :: clock call :: instants, ?_⟩
          rw [runClient_cons text hsync, hread, runClient_cons text hready, hland]
          exact ⟨hdoc, hend⟩

/-- **A sync alone lands its plan.** When nothing else comes between its calls, a sync that begins
leaves the document that one pass of its plan leaves. -/
theorem sync_alone (text : Unicode) (clock : ℕ → Instant) {s : Syncs} {client : ℕ} {tracker : String}
    {config : TicketSyncConfig} {node : String} {fetched : List SyncedTicket} {planned : SyncPlan}
    (hsync : s.syncs client =
      some (Sync.ofPlan tracker config (s.doc.listExact node) fetched planned)) :
    ∃ instants, (s.runClient text client instants).doc =
        (applyPlan clock tracker (s.doc.listExact node) s.doc planned).1 ∧
      (s.runClient text client instants).syncs client = none := by
  obtain ⟨instants, hdoc, hend⟩ := adds_alone text clock client planned.adds hsync rfl 0
  unfold applyPlan
  simp only [Sync.ofPlan] at hdoc hend
  cases hland : landAdds clock 0 ⟨s.doc, plannedIds (ticketTodos tracker (s.doc.listExact node))⟩ planned.adds with
  | mk landing failure =>
    rw [hland] at hdoc hend
    cases failure with
    | some failure =>
      simp only [hland]
      exact ⟨instants, hdoc, hend⟩
    | none =>
      obtain ⟨made, hend⟩ := hend
      obtain ⟨others, hdoc', hend'⟩ := edits_alone text clock client planned.edits hend rfl rfl rfl
        planned.adds.length
      refine ⟨instants ++ others, ?_⟩
      simp only [hland]
      rw [runClient_append, ← hdoc]
      exact ⟨hdoc', hend'⟩

end Syncs

end Devkit.Todos
