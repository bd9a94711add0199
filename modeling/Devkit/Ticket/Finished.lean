import Devkit.Library.Outcomes
import Devkit.Ticket.Lookups
import Devkit.Ticket.Verdict

/-!
# A finished worktree loses no work

`workspace end` deletes the finished worktrees. Whatever the forge, the tracker and the repository answer, a
row is finished only on evidence that its own answers give.
-/

namespace Devkit.Ticket

open Devkit.Library

section Statuses

variable (repository : Repository) (recorded : String → String → Option PrLocator) (f : ResolvedForge)

/-- The status of a lookup, a merged head compared with the worktree. -/
def comparedStatus (worktree : String) (lookup : HeadLookup) : PrStatus :=
  match lookup with
  | .unique pr =>
    if pr.state = "MERGED" then
      .unique pr.number pr.state pr.url pr.isDraft (aheadOf repository worktree pr.headRefOid)
    else prStatusOf lookup
  | _ => prStatusOf lookup

/-- The forge's answer to a row's own question, where there is a forge to ask. -/
def answeredBy (rows : List IssueWorktree) (i : ℕ) (row : IssueWorktree) : Option HeadLookup :=
  match f.kind with
  | .none => if f.declared then none else some (.unavailable ("no forge: " ++ f.reason))
  | .github | .gitlab | .forgejo =>
    match f.repo with
    | .ok repo => answerOf recorded repo f.forge rows i row
    | .error _ => none

/-- Each attached row's lookup is compared with that row's own worktree. -/
theorem prsOf_eq {rows : List IssueWorktree} (hdistinct : (attachedBranches rows).Nodup) (lookups : Table HeadLookup)
    {row : IssueWorktree} (hmem : row ∈ rows) (hattached : row.branch ≠ detached) :
    Prs.of repository lookups rows row.branch = (lookups row.branch).map (comparedStatus repository row.worktree) := by
  have hworktree : collect (rows.map fun row => (row.branch, row.worktree)) row.branch = some row.worktree := by
    refine collect_eq_some_of_unique (List.mem_map_of_mem hmem) fun worktree hother => ?_
    obtain ⟨other, hmemOther, heq⟩ := List.mem_map.mp hother
    obtain ⟨hbranch, rfl⟩ := Prod.mk.inj heq
    rw [eq_of_branch_eq hdistinct hmem hmemOther hattached hbranch]
  unfold Prs.of comparedStatus
  rw [hworktree]
  refine congrArg (fun g => Option.map g (lookups row.branch)) (funext fun lookup => ?_)
  cases lookup <;> rfl

/-- The status fetched for an attached row is that of its own answer, or its push state in a project that
declared it has no forge. -/
theorem fetchPrs_eq {rows : List IssueWorktree} (hdistinct : (attachedBranches rows).Nodup) {prs : Table PrStatus}
    (h : fetchPrs repository recorded f rows = .ok prs) {i : ℕ} {row : IssueWorktree} (hget : rows[i]? = some row)
    (hattached : row.branch ≠ detached) :
    prs row.branch = if f.kind = .none ∧ f.declared = true then some (.untracked (pushedOf repository row.worktree))
      else (answeredBy recorded f rows i row).map (comparedStatus repository row.worktree) := by
  have hmem : row ∈ rows := List.mem_of_getElem? hget
  have hbranch : row ∈ rows.filter fun row => row.branch != detached :=
    List.mem_filter.mpr ⟨hmem, by simpa using hattached⟩
  unfold fetchPrs at h
  unfold answeredBy
  cases hkind : f.kind with
  | none =>
    rw [hkind] at h
    by_cases hdeclared : f.declared = true
    · rw [if_pos ⟨rfl, hdeclared⟩]
      dsimp only at h
      rw [if_pos hdeclared] at h
      rw [← Except.ok.inj h]
      refine collect_eq_some ?_ (List.mem_map.mpr ⟨row, hbranch, rfl⟩)
      rw [List.map_map]
      exact hdistinct
    · rw [if_neg fun h => hdeclared h.2]
      dsimp only at h ⊢
      rw [if_neg hdeclared] at h
      rw [if_neg hdeclared, ← Except.ok.inj h, prsOf_eq repository hdistinct _ hmem hattached]
      refine congrArg _ (collect_eq_some ?_ (List.mem_map.mpr ⟨row.branch, List.mem_map_of_mem hbranch, rfl⟩))
      rw [List.map_map, List.map_map]
      exact hdistinct
  | github | gitlab | forgejo =>
    rw [hkind] at h
    cases hrepo : f.repo with
    | error reason =>
      rw [hrepo] at h
      cases h
    | ok repo =>
      rw [hrepo] at h
      rw [if_neg (fun hnone => nomatch hnone.1), ← Except.ok.inj h, prsOf_eq repository hdistinct _ hmem hattached]
      exact congrArg _ (lookupsOf_eq recorded repo f.forge hdistinct hget hattached)

end Statuses

section Rows

variable (repository : Repository) (prs : Table PrStatus)

/-- The status laid on a row. -/
def statusOn (row : IssueWorktree) : PrStatus :=
  (if row.branch = detached then none else prs row.branch).getD row.pr

/-- Laying the statuses on a row changes its status only. -/
theorem apply_eq (row : IssueWorktree) : Prs.apply prs row = { row with pr := statusOn prs row } := by
  unfold Prs.apply statusOn
  split
  · rfl
  · cases prs row.branch <;> rfl

/-- A row that proves landing is compared with a base fetched from one of the rows; the others are left. -/
theorem checkLandedRows_eq (rows : List IssueWorktree) : ∃ base,
    (∀ row ∈ rows, row.provesLanding = true → ∃ first ∈ rows, base = freshBase repository first.worktree) ∧
    checkLandedRows repository rows = rows.map fun row =>
      if row.provesLanding then { row with landed := landedOn base row.worktree } else row := by
  unfold checkLandedRows
  cases hrows : rows.filter IssueWorktree.provesLanding with
  | nil =>
    have hnone : ∀ row ∈ rows, ¬ row.provesLanding = true := List.filter_eq_nil_iff.mp hrows
    refine ⟨.error "", fun row hmem hproves => absurd hproves (hnone row hmem), ?_⟩
    calc rows = rows.map id := (List.map_id rows).symm
      _ = _ := List.map_congr_left fun row hmem => (if_neg (hnone row hmem)).symm
  | cons first rest =>
    have hfirst : first ∈ rows := (List.mem_filter.mp (hrows ▸ List.mem_cons_self)).1
    exact ⟨freshBase repository first.worktree, fun _ _ _ => ⟨first, hfirst, rfl⟩, rfl⟩

/-- The row with what was read for it, before it is judged. -/
def filledRow (trees : List Tree) (states : Table State) (i : ℕ) (row : IssueWorktree) : IssueWorktree :=
  { row with
    tree := trees[i]?.getD row.tree
    pr := statusOn prs row
    state := (row.issueId.asked.bind states).or row.state }

/-- What is read for a row fills it. -/
theorem filledRow_eq (trees : List Tree) (states : Table State) (i : ℕ) (row : IssueWorktree) :
    (Prs.apply prs (row.withTree trees[i]?)).withState
      ((Prs.apply prs (row.withTree trees[i]?)).issueId.asked.bind states) = filledRow prs trees states i row := by
  have htree : row.withTree trees[i]? = { row with tree := trees[i]?.getD row.tree } := by
    cases trees[i]? <;> rfl
  have hstate : ∀ (other : IssueWorktree) (state : Option State),
      other.withState state = { other with state := state.or other.state } := by
    intro other state
    cases state <;> rfl
  rw [htree, apply_eq, hstate]
  rfl

/-- A row of the report is a discovered row, filled and judged. -/
theorem getElem?_assemble {rows : List IssueWorktree} {trees : List Tree} {states : Table State}
    {tracker : TrackerInfo} {prOnly : Bool} {i : ℕ} {judged : IssueWorktree}
    (h : (assemble rows trees prs states tracker prOnly)[i]? = some judged) : ∃ row, rows[i]? = some row ∧
      judged = { filledRow prs trees states i row with
        verdict := verdict (filledRow prs trees states i row) tracker prOnly } := by
  rw [assemble, List.getElem?_mapIdx] at h
  obtain ⟨row, hrow, rfl⟩ := Option.map_eq_some_iff.mp h
  refine ⟨row, hrow, ?_⟩
  rw [← filledRow_eq]

end Rows

section Report

variable (repository : Repository) (recorded : String → String → Option PrLocator) (f : ResolvedForge)
  (found : List Found) (prOnly : Bool)

/-- The evidence that a worktree's work is kept: its one pull request is merged and HEAD no commit past it; or
HEAD is no commit past the freshly fetched default branch, and the answer is no open or unknown pull
request; or the project declared it has no forge, and the commits are on a remote. -/
inductive WorkKept (i : ℕ) (here : Found) : Prop
  | merged (pr : PrBrief)
      (hanswer : answeredBy recorded f (found.map .at) i (.at here) = some (.unique pr))
      (hmerged : pr.state = "MERGED")
      (hahead : repository.ahead here.worktree pr.headRefOid = .ok 0)
  | landed (first : Found) (base remote branch : String) (compare : String → String → Except String ℕ)
      (hanswer : ∀ lookup, answeredBy recorded f (found.map .at) i (.at here) = some lookup →
        lookup = .noMatch ∨ ∃ pr, lookup = .unique pr ∧ pr.state ≠ "OPEN")
      (hprOnly : prOnly = false)
      (hfirst : first ∈ found)
      (hbase : repository.defaultBranch first.worktree = .ok base)
      (hremote : splitOnce '/' base = some (remote, branch))
      (hfetch : repository.fetch first.worktree remote ("+refs/heads/" ++ branch ++ ":refs/remotes/" ++ base) =
        .ok compare)
      (hcompare : compare here.worktree base = .ok 0)
  | pushed (hkind : f.kind = .none) (hdeclared : f.declared = true)
      (hpushed : repository.pushed here.worktree = .ok true)

variable {repository recorded f found prOnly}

/-- A comparison that found no commit past the head was made. -/
theorem ahead_of_aheadOf {worktree oid : String} {n : ℕ} (h : aheadOf repository worktree oid = some n) :
    repository.ahead worktree oid = .ok n := by
  unfold aheadOf at h
  dsimp only at h
  split at h
  · cases h
  · cases hahead : repository.ahead worktree oid with
    | error reason =>
      rw [hahead] at h
      cases h
    | ok m =>
      rw [hahead] at h
      rw [Option.some.inj h]

/-- A push state that reads as pushed was answered. -/
theorem pushed_of_pushedOf {worktree : String} (h : pushedOf repository worktree = true) :
    repository.pushed worktree = .ok true := by
  unfold pushedOf at h
  split at h
  · rename_i pushed hpushed
    rw [hpushed, h]
  · cases h

/-- The status an attached row ends up with. -/
theorem statusOn_eq (hdistinct : (attachedBranches (found.map .at)).Nodup) {prs : Table PrStatus}
    (hprs : fetchPrs repository recorded f (found.map .at) = .ok prs) {i : ℕ} {here : Found}
    (hget : found[i]? = some here) (hattached : here.branch ≠ detached) :
    statusOn prs (.at here) = if f.kind = .none ∧ f.declared = true then .untracked (pushedOf repository here.worktree)
      else ((answeredBy recorded f (found.map .at) i (.at here)).map
        (comparedStatus repository here.worktree)).getD .none := by
  have hrow : (found.map IssueWorktree.at)[i]? = some (.at here) := by rw [List.getElem?_map, hget]; rfl
  have hstatus := fetchPrs_eq repository recorded f hdistinct hprs hrow hattached
  rw [statusOn, if_neg (show (IssueWorktree.at here).branch ≠ detached from hattached), hstatus]
  split <;> rfl

/-- Where the status is no open or unknown pull request, neither is the answer. -/
theorem answer_of_closed (hdistinct : (attachedBranches (found.map .at)).Nodup) {prs : Table PrStatus}
    (hprs : fetchPrs repository recorded f (found.map .at) = .ok prs) {i : ℕ} {here : Found}
    (hget : found[i]? = some here) (hattached : here.branch ≠ detached) (hclosed : (statusOn prs (.at here)).Closed)
    {lookup : HeadLookup} (hanswer : answeredBy recorded f (found.map .at) i (.at here) = some lookup) :
    lookup = .noMatch ∨ ∃ pr, lookup = .unique pr ∧ pr.state ≠ "OPEN" := by
  have hforge : ¬ (f.kind = .none ∧ f.declared = true) := by
    rintro ⟨hkind, hdeclared⟩
    rw [answeredBy, hkind] at hanswer
    dsimp only at hanswer
    rw [if_pos hdeclared] at hanswer
    cases hanswer
  rw [statusOn_eq hdistinct hprs hget hattached, if_neg hforge, hanswer] at hclosed
  cases lookup with
  | noMatch => exact Or.inl rfl
  | ambiguous | unavailable => exact absurd hclosed id
  | unique pr =>
    refine Or.inr ⟨pr, rfl, fun hopen => ?_⟩
    have hmerged : ¬ pr.state = "MERGED" := by rw [hopen]; decide
    simp only [Option.map_some, Option.getD_some, comparedStatus, if_neg hmerged, prStatusOf,
      PrStatus.Closed] at hclosed
    exact hclosed hopen

/-- A status that keeps the commits is the evidence of a merge or of a push. -/
theorem workKept_of_keeps (hdistinct : (attachedBranches (found.map .at)).Nodup) {prs : Table PrStatus}
    (hprs : fetchPrs repository recorded f (found.map .at) = .ok prs) {i : ℕ} {here : Found}
    (hget : found[i]? = some here) (hkeeps : (statusOn prs (.at here)).Keeps) :
    WorkKept repository recorded f found prOnly i here := by
  have hattached : here.branch ≠ detached := by
    intro hdetached
    rw [statusOn, if_pos (show (IssueWorktree.at here).branch = detached from hdetached)] at hkeeps
    exact hkeeps
  rw [statusOn_eq hdistinct hprs hget hattached] at hkeeps
  split at hkeeps
  · rename_i hforge
    exact .pushed hforge.1 hforge.2 (pushed_of_pushedOf hkeeps)
  · cases hanswer : answeredBy recorded f (found.map .at) i (.at here) with
    | none =>
      rw [hanswer] at hkeeps
      exact absurd hkeeps id
    | some lookup =>
      rw [hanswer, Option.map_some, Option.getD_some] at hkeeps
      cases lookup with
      | noMatch | ambiguous | unavailable => exact absurd hkeeps id
      | unique pr =>
        unfold comparedStatus at hkeeps
        dsimp only at hkeeps
        split at hkeeps
        · rename_i hmerged
          exact .merged pr hanswer hmerged (ahead_of_aheadOf hkeeps.2)
        · rename_i hmerged
          exact absurd hkeeps.1 hmerged

/-- A base compared with was freshly fetched. -/
theorem freshBase_ok {repo base : String} {compare : String → String → Except String ℕ}
    (h : freshBase repository repo = .ok (base, compare)) : repository.defaultBranch repo = .ok base ∧
      ∃ remote branch, splitOnce '/' base = some (remote, branch) ∧
        repository.fetch repo remote ("+refs/heads/" ++ branch ++ ":refs/remotes/" ++ base) = .ok compare := by
  unfold freshBase at h
  obtain ⟨name, hname, hrest⟩ := bind_eq_ok.mp h
  cases hremote : splitOnce '/' name with
  | none =>
    rw [hremote] at hrest
    cases hrest
  | some parts =>
    obtain ⟨remote, branch⟩ := parts
    rw [hremote] at hrest
    dsimp only at hrest
    cases hfetch : repository.fetch repo remote ("+refs/heads/" ++ branch ++ ":refs/remotes/" ++ name) with
    | error reason =>
      rw [hfetch] at hrest
      cases hrest
    | ok fetched =>
      rw [hfetch] at hrest
      obtain ⟨rfl, rfl⟩ := Prod.mk.inj (Except.ok.inj hrest)
      exact ⟨hname, remote, branch, hremote, hfetch⟩

/-- A row that landed was compared with a base. -/
theorem landedOn_yes {base : Except String (String × (String → String → Except String ℕ))} {worktree : String}
    (h : landedOn base worktree = .yes) : ∃ name compare, base = .ok (name, compare) ∧
      compare worktree name = .ok 0 := by
  unfold landedOn at h
  split at h
  · cases h
  · rename_i name compare
    split at h
    · rename_i hcompare
      exact ⟨name, compare, rfl, hcompare⟩
    · cases h
    · cases h

/-- A discovered row with its status, compared with a base where it proves landing. -/
def checkedRow (prs : Table PrStatus) (base : Except String (String × (String → String → Except String ℕ)))
    (here : Found) : IssueWorktree :=
  let laid : IssueWorktree := { IssueWorktree.at here with pr := statusOn prs (.at here) }
  if laid.provesLanding then { laid with landed := landedOn base here.worktree } else laid

/-- Comparing a row with a base changes only whether it landed. -/
theorem checkedRow_eq (prs : Table PrStatus) (base : Except String (String × (String → String → Except String ℕ)))
    (here : Found) : ∃ landed, checkedRow prs base here =
      { IssueWorktree.at here with pr := statusOn prs (.at here), landed } ∧
        (landed = .yes → landed = landedOn base here.worktree) := by
  unfold checkedRow
  dsimp only
  split
  · exact ⟨_, rfl, fun _ => rfl⟩
  · exact ⟨_, rfl, fun h => by cases h⟩

/-- Laying the status on a row again changes nothing. -/
theorem statusOn_again (prs : Table PrStatus) (row : IssueWorktree) (landed : Landed) :
    statusOn prs { row with pr := statusOn prs row, landed } = statusOn prs row := by
  unfold statusOn
  dsimp only
  cases (if row.branch = detached then none else prs row.branch) <;> rfl

/-- A row that was read and judged finished has its tree clean, its work kept and its issue settled. -/
theorem finished_filledRow (hdistinct : (attachedBranches (found.map .at)).Nodup) {prs : Table PrStatus}
    (hprs : fetchPrs repository recorded f (found.map .at) = .ok prs)
    {base : Except String (String × (String → String → Except String ℕ))} {i : ℕ} {here : Found}
    (hget : found[i]? = some here)
    (hbase : (checkedRow prs base here).provesLanding = true →
      ∃ first ∈ found, base = freshBase repository first.worktree)
    {trees : List Tree} {states : Table State} {tracker : TrackerInfo}
    (hfinished : verdict (filledRow prs trees states i (checkedRow prs base here)) tracker prOnly = .finished) :
    here.recordUnreadable = false ∧ trees[i]? = some .clean ∧ WorkKept repository recorded f found prOnly i here ∧
      (prOnly = true ∨ here.issueId = .noIssue ∨ here.issueId = .unknown ∨
        (tracker.kind = .none ∧ tracker.declared = true) ∨
        ∃ id state, here.issueId = .tracker id ∧ states id = some state ∧ state.kind = .completed) := by
  obtain ⟨landed, hchecked, hlandedOn⟩ := checkedRow_eq prs base here
  have hfilled : filledRow prs trees states i (checkedRow prs base here) = { IssueWorktree.at here with
      tree := trees[i]?.getD (.unknown "not checked")
      pr := statusOn prs (.at here)
      state := here.issueId.asked.bind states
      landed } := by
    rw [filledRow, hchecked, statusOn_again]
    simp only [IssueWorktree.at, Option.or_none]
  rw [hfilled] at hfinished
  obtain ⟨hrecord, htree, hstate, hkept⟩ := verdict_finished hfinished
  refine ⟨hrecord, ?_, ?_, ?_⟩
  · cases hread : trees[i]? with
    | none =>
      rw [hread] at htree
      cases htree
    | some tree =>
      rw [hread] at htree
      exact congrArg some htree
  · cases hkept with
    | inr hkeeps => exact workKept_of_keeps hdistinct hprs hget hkeeps
    | inl hlanding =>
      obtain ⟨hprOnly, hproves, hclosed, hlanded⟩ := hlanding
      have hattached : here.branch ≠ detached := bne_iff_ne.mp (Bool.and_eq_true_iff.mp hproves).1
      obtain ⟨first, hfirst, rfl⟩ := hbase (by rw [hchecked]; exact hproves)
      obtain ⟨name, compare, hfresh, hcompare⟩ := landedOn_yes ((hlandedOn hlanded).symm.trans hlanded)
      obtain ⟨hname, remote, branch, hremote, hfetch⟩ := freshBase_ok hfresh
      exact .landed first name remote branch compare (fun _ => answer_of_closed hdistinct hprs hget hattached hclosed)
        hprOnly hfirst hname hremote hfetch hcompare
  · refine hstate.imp_right fun h => h.imp_right fun h => h.imp_right fun h => h.imp_right fun h => ?_
    obtain ⟨state, hsome, hdone⟩ := h
    obtain ⟨id, hid, hfound⟩ := Option.bind_eq_some_iff.mp hsome
    refine ⟨id, state, ?_, hfound, hdone⟩
    cases hissue : here.issueId with
    | tracker name =>
      rw [hissue] at hid
      rw [Option.some.inj hid]
    | noIssue | unknown =>
      rw [hissue] at hid
      cases hid

/-- A worktree judged finished loses no work. Where the attached worktrees are on different branches, whatever
the forge, the tracker and the repository answer, a row of the report is finished only if its record was
readable, its tree was read clean, there is evidence that its work is kept, and its issue is completed or there
is none to wait for. -/
theorem finished_loses_no_work (hdistinct : (attachedBranches (found.map .at)).Nodup) {trees : List Tree}
    {states : Table State} {tracker : TrackerInfo} {rows : List IssueWorktree}
    (hgather : gather repository recorded f found trees states tracker prOnly = .ok rows) {i : ℕ}
    {row : IssueWorktree} (hget : rows[i]? = some row) (hfinished : row.verdict = .finished) :
    ∃ here, found[i]? = some here ∧ here.recordUnreadable = false ∧ trees[i]? = some .clean ∧
      WorkKept repository recorded f found prOnly i here ∧
      (prOnly = true ∨ here.issueId = .noIssue ∨ here.issueId = .unknown ∨
        (tracker.kind = .none ∧ tracker.declared = true) ∨
        ∃ id state, here.issueId = .tracker id ∧ states id = some state ∧ state.kind = .completed) := by
  unfold gather at hgather
  dsimp only at hgather
  split at hgather
  · rename_i hempty
    obtain rfl := Except.ok.inj hgather
    rw [List.isEmpty_iff.mp hempty] at hget
    cases hget
  · obtain ⟨prs, hprs, hrest⟩ := bind_eq_ok.mp hgather
    obtain rfl := Except.ok.inj hrest
    obtain ⟨base, hbase, hchecked⟩ := checkLandedRows_eq repository ((found.map .at).map (Prs.apply prs))
    obtain ⟨checked, hrow, rfl⟩ := getElem?_assemble prs hget
    rw [checkLanded, hchecked, List.getElem?_map, List.getElem?_map, List.getElem?_map] at hrow
    cases hhere : found[i]? with
    | none =>
      rw [hhere] at hrow
      cases hrow
    | some here =>
      rw [hhere, Option.map_some, Option.map_some, Option.map_some, apply_eq] at hrow
      obtain rfl := Option.some.inj hrow
      refine ⟨here, rfl, finished_filledRow hdistinct hprs hhere (fun hproves => ?_) hfinished⟩
      obtain ⟨landed, hlanded, -⟩ := checkedRow_eq prs base here
      have hmem : Prs.apply prs (.at here) ∈ (found.map .at).map (Prs.apply prs) :=
        List.mem_map_of_mem (List.mem_map_of_mem (List.mem_of_getElem? hhere))
      rw [hlanded] at hproves
      obtain ⟨row, hrow, hfresh⟩ := hbase _ hmem (by rw [apply_eq]; exact hproves)
      obtain ⟨laid, hlaid, rfl⟩ := List.mem_map.mp hrow
      obtain ⟨first, hfirst, rfl⟩ := List.mem_map.mp hlaid
      rw [apply_eq] at hfresh
      exact ⟨first, hfirst, hfresh⟩

end Report

section Example

/-- A worktree whose record names its pull request, one without an issue, and a detached one. -/
def sampleFound : List Found :=
  [⟨"/wt/one", "ab-1", .tracker "AB-1", false⟩, ⟨"/wt/two", "scratch", .unknown, false⟩,
    ⟨"/wt/three", detached, .unknown, false⟩]

/-- The first worktree's record. -/
def sampleRecorded (worktree _branch : String) : Option PrLocator :=
  if worktree = "/wt/one" then some ⟨none, 7⟩ else none

/-- A forge where the recorded pull request is merged and the other branch has none. -/
def sampleForge : ResolvedForge where
  kind := .github
  declared := true
  reason := "configured"
  repo := .ok ⟨"github.com", "o/r"⟩
  forge := ⟨fun targets => .ok (targets.map fun _ => .ok (some ⟨7, "MERGED", "https://pr/7", "c0ffee", false⟩)),
    fun _ _ => collect [("scratch", .noMatch)]⟩

/-- A repository where no HEAD is past what it is compared with. -/
def sampleRepository : Repository where
  ahead _ _ := .ok 0
  pushed _ := .ok false
  defaultBranch _ := .ok "origin/main"
  fetch _ _ _ := .ok fun _ _ => .ok 0

/-- The report of the three worktrees. -/
def sampleReport : List IssueWorktree :=
  ((gather sampleRepository sampleRecorded sampleForge sampleFound [.clean, .clean, .clean]
    (collect [("AB-1", ⟨.completed, "Done"⟩)]) ⟨.linear, true, true⟩ false).toOption).getD []

/-- The first worktree is finished, and its work is kept. -/
theorem finished_loses_no_work_sample : ∃ here, sampleFound[0]? = some here ∧ here.recordUnreadable = false ∧
    WorkKept sampleRepository sampleRecorded sampleForge sampleFound false 0 here := by
  have hgather : gather sampleRepository sampleRecorded sampleForge sampleFound [.clean, .clean, .clean]
      (collect [("AB-1", ⟨.completed, "Done"⟩)]) ⟨.linear, true, true⟩ false = .ok sampleReport := by decide +kernel
  obtain ⟨row, hrow⟩ : ∃ row, sampleReport[0]? = some row := Option.isSome_iff_exists.mp (by decide +kernel)
  have hfinished : sampleReport[0]?.map IssueWorktree.verdict = some .finished := by decide +kernel
  rw [hrow] at hfinished
  obtain ⟨here, hhere, hread, -, hkept, -⟩ :=
    finished_loses_no_work (by decide +kernel) hgather hrow (Option.some.inj hfinished)
  exact ⟨here, hhere, hread, hkept⟩

end Example

end Devkit.Ticket
