import Devkit.Hook.Evaluated
import Devkit.Library.Outcomes
import Devkit.Locks.Protection

/-!
# What the gate leaves

The checks leave the registry alone. The claims after them only renew rows and write rows of the gate's
own, so a row a claim was granted on stays for as long as its lease runs from that claim.
-/

namespace Devkit.Hook

open Devkit.Common
open Devkit.Library
open Devkit.Locks

variable {w : Checkouts} {clock : ℕ → Moment} {holder : String} {unresolved : PolicyAction}

/-- What a stretch of checks does. -/
structure Checked (n : ℕ) (s s' : Enforcing) : Prop where
  data : s'.data = s.data
  asked : s'.asked = s.asked + n
  conflicts : s.conflicts ⊆ s'.conflicts
  verdict : s'.verdict = s.verdict

/-- One check that was answered keeps what it found. -/
theorem checkOne_ok {s s' : Enforcing} {check : ScopeCheck} (h : checkOne w clock holder s check = .ok s') :
    Checked 1 s s' ∧ ∃ conflicts, askScope w holder (clock s.asked) s.data check = .ok conflicts ∧
      conflicts ⊆ s'.conflicts := by
  unfold checkOne at h
  split at h
  · cases h
  · rename_i conflicts hask
    obtain rfl := Except.ok.inj h
    exact ⟨⟨rfl, rfl, List.subset_append_left _ _, rfl⟩, conflicts, hask, List.subset_append_right _ _⟩

/-- The checks together are a stretch. -/
theorem checked_foldlM {checks : List ScopeCheck} {s s' : Enforcing}
    (h : checks.foldlM (checkOne w clock holder) s = .ok s') : Checked checks.length s s' := by
  refine foldlM_counted (fun s => ⟨rfl, rfl, List.Subset.refl _, rfl⟩) ?_ (fun s check s' h => (checkOne_ok h).1) h
  intro m n s s' s'' h h'
  exact ⟨h'.data.trans h.data, by rw [h'.asked, h.asked, Nat.add_assoc],
    List.Subset.trans h.conflicts h'.conflicts, h'.verdict.trans h.verdict⟩

/-- Each check is asked in its turn, of the registry the gate found, and what it finds is kept. -/
theorem asked_of_checked {checks : List ScopeCheck} {s s' : Enforcing}
    (h : checks.foldlM (checkOne w clock holder) s = .ok s') {i : ℕ} {check : ScopeCheck}
    (hget : checks[i]? = some check) : ∃ conflicts,
      askScope w holder (clock (s.asked + i)) s.data check = .ok conflicts ∧ conflicts ⊆ s'.conflicts := by
  obtain ⟨before, after, hbefore, hat, hafter⟩ := foldlM_split hget h
  have hfirst := checked_foldlM hbefore
  have hlater := checked_foldlM hafter
  have hlength : (checks.take i).length = i :=
    List.length_take_of_le (List.getElem?_eq_some_iff.mp hget).1.le
  obtain ⟨-, conflicts, hask, hkept⟩ := checkOne_ok hat
  rw [hfirst.data, hfirst.asked, hlength] at hask
  exact ⟨conflicts, hask, List.Subset.trans hkept hlater.conflicts⟩

/-- A check that fails leaves the registry the gate found. -/
theorem checks_error {checks : List ScopeCheck} {s : Enforcing} {d : Data} {reason : String}
    (h : checks.foldlM (checkOne w clock holder) s = .error (d, reason)) : d = s.data := by
  obtain ⟨i, check, before, -, hbefore, hat⟩ := foldlM_error h
  unfold checkOne at hat
  split at hat
  · have hdata := congrArg Prod.fst (Except.error.inj hat)
    exact hdata.symm.trans (checked_foldlM hbefore).data
  · cases hat

/-- A row with the lease the gate gives. -/
def OwnLease (e : LockEntry) : Prop := e.ttl = ttlSecs ∧ e.pid = none

/-- What a stretch of claims does: rows come from the registry before it or are the gate's own, and a row
whose lease runs to the end stays. -/
structure Claimed (clock : ℕ → Moment) (n : ℕ) (s s' : Enforcing) : Prop where
  asked_le : s.asked ≤ s'.asked
  asked_bound : s'.asked ≤ s.asked + n
  conflicts : s.conflicts ⊆ s'.conflicts
  blocks : s.verdict.blocks ⊆ s'.verdict.blocks
  keyed : Keyed s.data → Keyed s'.data
  origin : ∀ k e', s'.data.Row k e' → (∃ e, s.data.Row k e ∧ Restamped e e') ∨ OwnLease e'
  stays : Keyed s.data → ∀ finish, clock s'.asked ≤ finish → ∀ k e, s.data.Row k e →
    e.ts ≤ (clock s.asked).now → Live finish e → ∃ e', s'.data.Row k e' ∧ SameClaim e e' ∧
      e'.ts ≤ (clock s'.asked).now ∧ Live finish e'

/-- No claims do nothing. -/
theorem Claimed.refl (s : Enforcing) : Claimed clock 0 s s where
  asked_le := le_rfl
  asked_bound := le_rfl
  conflicts := List.Subset.refl _
  blocks := List.Subset.refl _
  keyed := id
  origin _ e' hrow := Or.inl ⟨e', hrow, Restamped.refl e'⟩
  stays _ _ _ _ e hrow hts hlive := ⟨e, hrow, ⟨rfl, rfl, rfl⟩, hts, hlive⟩

/-- The same claim as the same claim is the same claim. -/
theorem sameClaim_trans {e e' e'' : LockEntry} (h : SameClaim e e') (h' : SameClaim e' e'') : SameClaim e e'' :=
  ⟨h'.1.trans h.1, h'.2.1.trans h.2.1, h'.2.2.trans h.2.2⟩

/-- A restamped row has the lease it had. -/
theorem OwnLease.restamped {e e' : LockEntry} (h : OwnLease e) (hsame : Restamped e e') : OwnLease e' := by
  rw [hsame]
  exact h

/-- Claims after claims. -/
theorem Claimed.trans (hclock : Monotone clock) {m n : ℕ} {s s' s'' : Enforcing} (h : Claimed clock m s s')
    (h' : Claimed clock n s' s'') : Claimed clock (m + n) s s'' where
  asked_le := h.asked_le.trans h'.asked_le
  asked_bound := by
    have hfirst := h.asked_bound
    have hsecond := h'.asked_bound
    omega
  conflicts := List.Subset.trans h.conflicts h'.conflicts
  blocks := List.Subset.trans h.blocks h'.blocks
  keyed hkeyed := h'.keyed (h.keyed hkeyed)
  origin k e'' hrow := by
    cases h'.origin k e'' hrow with
    | inr hown => exact Or.inr hown
    | inl hold =>
      obtain ⟨e', hrow', hsame'⟩ := hold
      refine (h.origin k e' hrow').imp ?_ (fun hown => hown.restamped hsame')
      rintro ⟨e, hrow, hsame⟩
      exact ⟨e, hrow, hsame.trans hsame'⟩
  stays hkeyed finish hfinish k e hrow hts hlive := by
    have hmiddle : clock s'.asked ≤ finish := (hclock h'.asked_le).trans hfinish
    obtain ⟨e', hrow', hsame, hts', hlive'⟩ := h.stays hkeyed finish hmiddle k e hrow hts hlive
    obtain ⟨e'', hrow'', hsame', hts'', hlive''⟩ :=
      h'.stays (h.keyed hkeyed) finish hfinish k e' hrow' hts' hlive'
    exact ⟨e'', hrow'', sameClaim_trans hsame hsame', hts'', hlive''⟩

/-- One claim the registry decided. -/
theorem claimed_write (hclock : Monotone clock) (holder : String) (s : Enforcing) (root : Root) (rel : String)
    (conflicts : List Conflict) : Claimed clock 1 s
      { s with
        data := (s.data.writeDecideWith (clock s.asked) root holder rel none (some note) ttlSecs).1
        asked := s.asked + 1
        conflicts := s.conflicts ++ conflicts } where
  asked_le := Nat.le_succ _
  asked_bound := le_rfl
  conflicts := List.subset_append_left _ _
  blocks := List.Subset.refl _
  keyed hkeyed := hkeyed.apply ⟨clock s.asked, .writeDecide root holder rel none (some note) ttlSecs⟩
  origin k e' hrow := by
    refine (Data.row_writeDecideWith _ _ _ _ _ _ _ _ hrow).imp_right fun hown => ?_
    rw [hown]
    exact ⟨rfl, rfl⟩
  stays hkeyed finish hfinish k e hrow hts hlive := by
    have hnext : clock s.asked ≤ clock (s.asked + 1) := hclock (Nat.le_succ _)
    obtain ⟨e', hrow', hsame, hlater, hts'⟩ := Data.writeDecideWith_keeps (clock s.asked) s.data root
      holder rel none (some note) ttlSecs hkeyed hrow (hlive.of_le (hnext.trans hfinish)) hts
    exact ⟨e', hrow', hsame.same, hts'.trans hnext.1, hlive.restamp hsame hlater⟩

/-- The registry decided a write to the key at this place, and named no conflict. -/
def Decided (clock : ℕ → Moment) (holder : String) (s s' : Enforcing) (root : Root) (rel : String) : Prop :=
  ∃ decision, s.data.writeDecideWith (clock s.asked) root holder rel none (some note) ttlSecs =
    (s'.data, decision) ∧ deniedBy decision ⊆ s'.conflicts ∧ s'.asked = s.asked + 1

/-- A path that was claimed had a key, and a write to it was decided. -/
theorem claimPath_ok (hclock : Monotone clock) {s s' : Enforcing} {path : String}
    (h : claimPath w clock holder s path = .ok s') : Claimed clock 1 s s' ∧
      ∃ root rel, w.ctx path = .ok (root, rel) ∧ Decided clock holder s s' root rel := by
  unfold claimPath at h
  split at h
  · cases h
  · rename_i data decision hdecide
    obtain rfl := Except.ok.inj h
    obtain ⟨⟨root, rel⟩, hkey, hwrite⟩ := bind_eq_ok.mp hdecide
    have hwrite := Except.ok.inj hwrite
    refine ⟨?_, root, rel, hkey, decision, hwrite, List.subset_append_right _ _, rfl⟩
    have hdata : data = (s.data.writeDecideWith (clock s.asked) root holder rel none (some note) ttlSecs).1 :=
      (congrArg Prod.fst hwrite).symm
    rw [hdata]
    exact claimed_write hclock holder s root rel _

/-- A finding claims nothing. -/
theorem claimed_finding (s : Enforcing) (action : PolicyAction) (message : String) :
    Claimed clock 1 s { s with verdict := s.verdict.finding action message } where
  asked_le := le_rfl
  asked_bound := Nat.le_succ _
  conflicts := List.Subset.refl _
  blocks := (Evaluation.prefix_finding s.verdict action message).subset
  keyed := id
  origin _ e' hrow := Or.inl ⟨e', hrow, Restamped.refl e'⟩
  stays _ _ _ _ e hrow hts hlive := ⟨e, hrow, ⟨rfl, rfl, rfl⟩, hts, hlive⟩

/-- A directory the registry claims lies below the root of its checkout; for any other one it does nothing. -/
theorem claimTree_ok {m : Moment} {d d' : Data} {dir : String} {answer : Option WriteDecision}
    (h : w.claimTree m d dir holder (some note) ttlSecs = .ok (d', answer)) :
    (d' = d ∧ answer = none) ∨ ∃ root rel decision, w.scopeKey dir false = .ok (root, rel) ∧ rel ≠ "." ∧
      d.writeDecideWith m root holder rel none (some note) ttlSecs = (d', decision) ∧ answer = some decision := by
  obtain ⟨⟨root, rel⟩, hkey, hrest⟩ := bind_eq_ok.mp h
  dsimp only at hrest
  split at hrest
  · obtain ⟨rfl, rfl⟩ := Prod.mk.inj (Except.ok.inj hrest)
    exact Or.inl ⟨rfl, rfl⟩
  · rename_i hbelow
    obtain ⟨rfl, rfl⟩ := Prod.mk.inj (Except.ok.inj hrest)
    simp only [Bool.or_eq_true, beq_iff_eq, not_or] at hbelow
    exact Or.inr ⟨root, rel, _, hkey, hbelow.1, rfl, rfl⟩

/-- A directory that was claimed had a key below its checkout's root, and a write to it was decided; any
other directory is a finding of the policy. -/
theorem claimDir_ok (hclock : Monotone clock) {s s' : Enforcing} {dir : String}
    (h : claimDir w clock holder unresolved s dir = .ok s') : Claimed clock 1 s s' ∧
      ((∃ root rel, w.scopeKey dir false = .ok (root, rel) ∧ rel ≠ "." ∧ Decided clock holder s s' root rel) ∨
        (unresolved = .block → s'.verdict.blocks ≠ [])) := by
  unfold claimDir at h
  split at h
  · cases h
  · rename_i data decision hclaim
    obtain rfl := Except.ok.inj h
    cases claimTree_ok hclaim with
    | inl hnone => cases hnone.2
    | inr hsome =>
      obtain ⟨root, rel, decided, hkey, hrel, hwrite, hdecision⟩ := hsome
      obtain rfl := Option.some.inj hdecision
      have hdata : data = (s.data.writeDecideWith (clock s.asked) root holder rel none (some note) ttlSecs).1 :=
        (congrArg Prod.fst hwrite).symm
      refine ⟨?_, Or.inl ⟨root, rel, hkey, hrel, decision, hwrite, List.subset_append_right _ _, rfl⟩⟩
      rw [hdata]
      exact claimed_write hclock holder s root rel _
  · rename_i data hclaim
    obtain rfl := Except.ok.inj h
    cases claimTree_ok hclaim with
    | inl hnone =>
      obtain ⟨rfl, -⟩ := hnone
      refine ⟨claimed_finding s _ _, Or.inr fun hblock => ?_⟩
      rw [hblock]
      exact List.append_ne_nil_of_right_ne_nil _ (List.cons_ne_nil _ _)
    | inr hsome =>
      obtain ⟨root, rel, decided, -, -, -, hdecision⟩ := hsome
      cases hdecision

/-- The key is reserved at the end of a stage that began at `start`: a live row covers it, or the covering
row it was granted on, renewed at the start, would have lapsed by now, or the gate's own lease would. -/
def Secured (start finish : Moment) (d d' : Data) (holder : String) (root : Root) (rel : String) : Prop :=
  (∃ k e, d'.Row k e ∧ Covers root rel holder e ∧ Live finish e) ∨
    (∃ k e, d.Row k e ∧ Covers root rel holder e ∧ ¬ Live finish { e with ts := start.now }) ∨
    start.now + ttlSecs ≤ finish.now

/-- What reserves a directory reserves what lies below it. -/
theorem Secured.below {start finish : Moment} {d d' : Data} {root : Root} {outer inner : String}
    (hroot : outer ≠ ".") (habove : outer = "." ∨ Ancestor outer inner)
    (h : Secured start finish d d' holder root outer) : Secured start finish d d' holder root inner := by
  have hcovers : ∀ e, Covers root outer holder e → Covers root inner holder e := fun e hcovers =>
    ⟨hcovers.root_eq, hcovers.above.imp_right fun hup => AtOrAbove.trans hup (habove.resolve_left hroot),
      hcovers.holder_above⟩
  rcases h with ⟨k, e, hrow, hcov, hlive⟩ | ⟨k, e, hrow, hcov, hlapsed⟩ | hown
  · exact Or.inl ⟨k, e, hrow, hcovers e hcov, hlive⟩
  · exact Or.inr (Or.inl ⟨k, e, hrow, hcovers e hcov, hlapsed⟩)
  · exact Or.inr (Or.inr hown)

/-- A row stamped after the start and dead at the end would be dead if stamped at the start. -/
theorem not_live_of_restamped {start finish : Moment} {e e' : LockEntry} (hsame : Restamped e e')
    (hts : start.now ≤ e'.ts) (hdead : ¬ Live finish e') : ¬ Live finish { e with ts := start.now } := by
  intro hlive
  refine hdead (hlive.restamp ?_ hts)
  rw [Restamped, hsame]

/-- A row with the gate's lease, stamped after the start, lapses only once that lease has run out. -/
theorem OwnLease.lapsed {start finish : Moment} {e : LockEntry} (h : OwnLease e) (hts : start.now ≤ e.ts)
    (hdead : ¬ Live finish e) : start.now + ttlSecs ≤ finish.now := by
  by_contra hshort
  refine hdead (live_iff.mpr ⟨Or.inr ?_, fun pid hpid => ?_⟩)
  · have httl : ttlSecs = 1800 := rfl
    rw [h.1]
    omega
  · rw [h.2] at hpid
    cases hpid

/-- A key whose write was decided without a conflict is reserved when the claims are over. -/
theorem Decided.secured (hclock : Monotone clock) {a m n : ℕ} {s s₁ s₂ s₃ : Enforcing} (hd : Keyed s.data)
    (hbefore : Claimed clock m s s₁) (hafter : Claimed clock n s₂ s₃) {root : Root} {rel : String}
    (h : Decided clock holder s₁ s₂ root rel) (hnone : s₃.conflicts = []) (hend : s₃.asked ≤ a) :
    Secured (clock 0) (clock a) s.data s₃.data holder root rel := by
  obtain ⟨decision, hwrite, hdenied, hasked⟩ := h
  have hclean : deniedBy decision = [] :=
    List.eq_nil_of_subset_nil (hnone ▸ List.Subset.trans hdenied hafter.conflicts)
  obtain ⟨k, e, hrow, hcovers, hts⟩ := Data.writeDecideWith_covers (clock s₁.asked) s₁.data root holder rel none
    (some note) ttlSecs
    fun conflicts hconflicts => by
      rw [hwrite] at hconflicts
      obtain rfl : decision = .denied conflicts := hconflicts
      exact hclean
  have hstep := claimed_write hclock holder s₁ root rel []
  have hstart : (clock 0).now ≤ e.ts := hts ▸ (hclock (Nat.zero_le _)).1
  by_cases hlive : Live (clock a) e
  · have hkeyed := hstep.keyed (hbefore.keyed hd)
    have hstamped : e.ts ≤ (clock s₂.asked).now := by
      rw [hts, hasked]
      exact (hclock (Nat.le_succ _)).1
    rw [hwrite] at hrow hkeyed
    obtain ⟨e', hrow', hsame, -, hlive'⟩ := hafter.stays hkeyed (clock a) (hclock hend) k e hrow hstamped hlive
    exact Or.inl ⟨k, e', hrow', hcovers.same hsame, hlive'⟩
  · right
    cases (hbefore.trans hclock hstep).origin k e hrow with
    | inl hold =>
      obtain ⟨old, hrowOld, hsame⟩ := hold
      obtain ⟨hroot, hpath, hholder⟩ := hsame.same
      exact Or.inl ⟨k, old, hrowOld, ⟨hroot ▸ hcovers.root_eq, hpath ▸ hcovers.above, hholder ▸ hcovers.holder_above⟩,
        not_live_of_restamped hsame hstart hlive⟩
    | inr hown => exact Or.inr (hown.lapsed hstart hlive)

end Devkit.Hook
