import Devkit.Ticket.Checks

/-!
# What the verdict of the checks discounts

The verdict is read off the latest attempts and the patterns' language: the names that failed and no pattern
matches, else whether one still runs, else how many failures are ignored. The matcher agrees with the language
where it never holds a `*` of the pattern against one of the name; for every name with a `*` there is a pattern on
which it does not.
-/

namespace Devkit.Ticket

open Devkit.Library

variable (lower : String → String)

/-- The name is in the pattern's language, both in lower case. -/
def Matches (pattern name : String) : Prop := Fits '*' '?' (lower pattern).toList (lower name).toList

/-- Some pattern's language has the name. -/
def Ignored (ignored : List String) (name : String) : Prop := ∃ pattern ∈ ignored, Matches lower pattern name

/-- The latest attempt under the name stands so. -/
def Stands (runs : List CheckRun) (state : CheckState) (name : String) : Prop :=
  ∃ r, Latest runs r ∧ r.name = name ∧ r.state = state

/-- The verdict is the one the latest attempts that are not ignored have. -/
def Discounts (runs : List CheckRun) (ignored : List String) : Checks → Prop
  | .none => False
  | .fail names => names ≠ [] ∧ names.Nodup ∧
      ∀ name, name ∈ names ↔ Stands runs .failed name ∧ ¬ Ignored lower ignored name
  | .run => (∀ name, Stands runs .failed name → Ignored lower ignored name) ∧
      ∃ name, Stands runs .running name ∧ ¬ Ignored lower ignored name
  | .ok masked => (∀ name, Stands runs .failed name → Ignored lower ignored name) ∧
      (∀ name, Stands runs .running name → Ignored lower ignored name) ∧
      ∃ names : List String, names.Nodup ∧ (∀ name, name ∈ names ↔ Stands runs .failed name ∧
        Ignored lower ignored name) ∧
        names.length = masked

/-- The verdicts are of one kind, with the same names and the same count. -/
def Checks.Agree : Checks → Checks → Prop
  | .none, .none => True
  | .ok masked, .ok masked' => masked = masked'
  | .run, .run => True
  | .fail names, .fail names' => ∀ name, name ∈ names ↔ name ∈ names'
  | _, _ => False

/-- The verdict on some attempts discounts exactly what is ignored, and does not depend on their order. -/
structure DiscountsExactly (overall : CheckState) (runs : List CheckRun) (ignored : List String) : Prop where
  matching : ∀ pattern ∈ ignored, ∀ run ∈ runs, globMatch lower pattern run.name = true ↔ Matches lower pattern run.name
  verdict : Discounts lower runs ignored (checkVerdict lower ignored (some ⟨overall, runs⟩))
  ordered : (runs.Pairwise fun a b => a.name = b.name → a.startedAt ≠ b.startedAt) → ∀ runs', runs.Perm runs' →
    (checkVerdict lower ignored (some ⟨overall, runs⟩)).Agree (checkVerdict lower ignored (some ⟨overall, runs'⟩))

section Tally

variable {lower} {ignored : List String} {latest : List CheckRun}

/-- The attempt stands so and is ignored or not. -/
def counted (lower : String → String) (ignored : List String) (state : CheckState) (masked : Bool)
    (c : CheckRun) : Bool :=
  decide (c.state = state) && nameIgnored lower ignored c.name == masked

/-- The tally of attempts, in terms of those it counts. -/
theorem foldl_add (tally : Tally) :
    latest.foldl (Tally.add lower ignored) tally =
      ⟨tally.failing ++ (latest.filter (counted lower ignored .failed false)).map CheckRun.name,
        tally.running || latest.any (counted lower ignored .running false),
        tally.masked + (latest.filter (counted lower ignored .failed true)).length⟩ := by
  induction latest generalizing tally with
  | nil => simp
  | cons c rest ih =>
    rw [List.foldl_cons, ih, Tally.add, List.filter_cons, List.filter_cons, List.any_cons, counted, counted, counted]
    cases c.state <;> cases nameIgnored lower ignored c.name <;> simp [Nat.add_assoc, Nat.add_comm]

variable {runs : List CheckRun}

/-- The names counted are those of latest attempts that stand so. -/
theorem mem_counted (h : Collapsed runs latest) {state : CheckState} {masked : Bool} {name : String} :
    name ∈ (latest.filter (counted lower ignored state masked)).map CheckRun.name ↔
      Stands runs state name ∧ nameIgnored lower ignored name = masked := by
  rw [List.mem_map, Stands]
  constructor
  · rintro ⟨r, hr, rfl⟩
    obtain ⟨hlatest, hcounted⟩ := List.mem_filter.mp hr
    rw [counted, Bool.and_eq_true, decide_eq_true_eq, beq_iff_eq] at hcounted
    exact ⟨⟨r, (h.mem_iff r).mp hlatest, rfl, hcounted.1⟩, hcounted.2⟩
  · rintro ⟨⟨r, hlatest, rfl, hstate⟩, hmasked⟩
    refine ⟨r, List.mem_filter.mpr ⟨(h.mem_iff r).mpr hlatest, ?_⟩, rfl⟩
    rw [counted, Bool.and_eq_true, decide_eq_true_eq, beq_iff_eq]
    exact ⟨hstate, hmasked⟩

/-- Each name is counted once. -/
theorem nodup_counted (h : Collapsed runs latest) (state : CheckState) (masked : Bool) :
    ((latest.filter (counted lower ignored state masked)).map CheckRun.name).Nodup :=
  h.names.sublist (List.filter_sublist.map CheckRun.name)

/-- Some attempt counted is an attempt of a counted name. -/
theorem any_counted (h : Collapsed runs latest) {state : CheckState} {masked : Bool} :
    latest.any (counted lower ignored state masked) = true ↔
      ∃ name, Stands runs state name ∧ nameIgnored lower ignored name = masked := by
  rw [List.any_eq_true]
  constructor
  · rintro ⟨r, hr, hcounted⟩
    exact ⟨r.name, (mem_counted h).mp (List.mem_map_of_mem (List.mem_filter.mpr ⟨hr, hcounted⟩))⟩
  · rintro ⟨name, hname⟩
    obtain ⟨r, hr, _⟩ := List.mem_map.mp ((mem_counted h).mpr hname)
    exact ⟨r, List.mem_filter.mp hr⟩

/-- The verdict on some attempts, in terms of the latest ones counted. -/
theorem checkVerdict_eq (hruns : runs ≠ []) (overall : CheckState) :
    checkVerdict lower ignored (some ⟨overall, runs⟩) = Tally.verdict
      ⟨((latestRuns runs).filter (counted lower ignored .failed false)).map CheckRun.name,
        (latestRuns runs).any (counted lower ignored .running false),
        ((latestRuns runs).filter (counted lower ignored .failed true)).length⟩ := by
  have hlisted : ¬ runs.isEmpty = true := fun hempty => hruns (List.isEmpty_iff.mp hempty)
  rw [checkVerdict]
  dsimp only
  rw [if_neg hlisted, foldl_add, List.nil_append, Bool.false_or, Nat.zero_add]

/-- Where the matcher agrees with the language, the verdict discounts what is ignored. -/
theorem discounts_of_matching (hruns : runs ≠ []) (overall : CheckState)
    (hmatching : ∀ pattern ∈ ignored, ∀ run ∈ runs, globMatch lower pattern run.name = true ↔
      Matches lower pattern run.name) :
    Discounts lower runs ignored (checkVerdict lower ignored (some ⟨overall, runs⟩)) := by
  have hcollapsed := collapsed_latestRuns runs
  have hignored {state : CheckState} {name : String} (hstands : Stands runs state name) :
      nameIgnored lower ignored name = true ↔ Ignored lower ignored name := by
    obtain ⟨r, hr, rfl, _⟩ := hstands
    rw [nameIgnored, List.any_eq_true, Ignored]
    exact exists_congr fun pattern => and_congr_right fun hpattern => hmatching pattern hpattern r hr.mem
  have hnot {state : CheckState} {name : String} (hstands : Stands runs state name) :
      nameIgnored lower ignored name = false ↔ ¬ Ignored lower ignored name := by
    rw [← hignored hstands, Bool.not_eq_true]
  rw [checkVerdict_eq hruns]
  by_cases hfailing : ((latestRuns runs).filter (counted lower ignored .failed false)).map CheckRun.name = []
  · have hfailed : ∀ name, Stands runs .failed name → Ignored lower ignored name := by
      intro name hstands
      by_contra hshown
      exact List.ne_nil_of_mem ((mem_counted hcollapsed).mpr ⟨hstands, (hnot hstands).mpr hshown⟩) hfailing
    rw [hfailing]
    cases hrunning : (latestRuns runs).any (counted lower ignored .running false) with
    | true =>
      obtain ⟨name, hstands, hshown⟩ := (any_counted hcollapsed).mp hrunning
      exact ⟨hfailed, name, hstands, (hnot hstands).mp hshown⟩
    | false =>
      refine ⟨hfailed, fun name hstands => ?_, _, nodup_counted hcollapsed .failed true, fun name => ?_,
        List.length_map _⟩
      · by_contra hshown
        have hany := (any_counted hcollapsed).mpr ⟨name, hstands, (hnot hstands).mpr hshown⟩
        rw [hrunning] at hany
        cases hany
      · rw [mem_counted hcollapsed]
        exact and_congr_right hignored
  · rw [Tally.verdict, if_pos (by rw [Bool.not_eq_true', List.isEmpty_eq_false_iff]; exact hfailing)]
    refine ⟨hfailing, nodup_counted hcollapsed .failed false, fun name => ?_⟩
    rw [mem_counted hcollapsed]
    exact and_congr_right hnot

end Tally

section Order

variable {runs : List CheckRun}

/-- Attempts that began at one time have one start. -/
theorem CheckRun.start_inj {c e : CheckRun} (h : c.start = e.start) : c.startedAt = e.startedAt := by
  unfold CheckRun.start at h
  cases hc : c.startedAt with
  | none =>
    cases he : e.startedAt with
    | none => rfl
    | some started =>
      rw [hc, he] at h
      exact absurd h WithBot.bot_ne_coe
  | some started =>
    cases he : e.startedAt with
    | none =>
      rw [hc, he] at h
      exact absurd h WithBot.coe_ne_bot
    | some started' =>
      rw [hc, he] at h
      exact congrArg some (WithBot.coe_inj.mp h)

/-- Where each name's attempts began at different times, the latest is the one no other is later than. -/
theorem latest_iff_of_distinct (hdistinct : runs.Pairwise fun a b => a.name = b.name → a.startedAt ≠ b.startedAt)
    {r : CheckRun} : Latest runs r ↔ r ∈ runs ∧ ∀ e ∈ runs, e.name = r.name → e.start ≤ r.start := by
  constructor
  · intro hlatest
    refine ⟨hlatest.mem, fun e he hname => ?_⟩
    obtain ⟨before, after, rfl, hbefore, hafter⟩ := hlatest
    rcases List.mem_append.mp he with hin | hin
    · exact (hbefore e hin hname).le
    · rcases List.mem_cons.mp hin with rfl | hin
      · exact le_rfl
      · exact hafter e hin hname
  · rintro ⟨hr, hall⟩
    obtain ⟨before, after, rfl⟩ := List.append_of_mem hr
    refine ⟨before, after, rfl, fun e he hname => ?_, fun e he => hall e (by simp [he])⟩
    refine lt_of_le_of_ne (hall e (List.mem_append_left _ he) hname) fun heq => ?_
    exact (List.pairwise_append.mp hdistinct).2.2 e he r List.mem_cons_self hname (CheckRun.start_inj heq)

/-- Verdicts on tallies with the same names agree. -/
theorem Tally.agree {failing failing' : List String} (hnames : ∀ name, name ∈ failing ↔ name ∈ failing')
    (running : Bool) (masked : ℕ) :
    (Tally.verdict ⟨failing, running, masked⟩).Agree (Tally.verdict ⟨failing', running, masked⟩) := by
  cases failing with
  | nil =>
    obtain rfl : failing' = [] := List.eq_nil_iff_forall_not_mem.mpr fun name h =>
      List.not_mem_nil ((hnames name).mpr h)
    cases running with
    | true => trivial
    | false => exact rfl
  | cons first rest =>
    cases failing' with
    | nil => exact absurd ((hnames first).mp List.mem_cons_self) List.not_mem_nil
    | cons first' rest' => exact hnames

/-- Where each name's attempts began at different times, their order does not show. -/
theorem agree_of_perm (lower : String → String) (ignored : List String) (overall : CheckState) (hruns : runs ≠ [])
    (hdistinct : runs.Pairwise fun a b => a.name = b.name → a.startedAt ≠ b.startedAt) {runs' : List CheckRun}
    (hperm : runs.Perm runs') : (checkVerdict lower ignored (some ⟨overall, runs⟩)).Agree
      (checkVerdict lower ignored (some ⟨overall, runs'⟩)) := by
  have hdistinct' := (hperm.pairwise_iff fun {a b} h heq => (h heq.symm).symm).mp hdistinct
  have hlatest (r : CheckRun) : Latest runs r ↔ Latest runs' r := by
    rw [latest_iff_of_distinct hdistinct, latest_iff_of_distinct hdistinct', hperm.mem_iff]
    exact and_congr_right fun _ => forall_congr' fun e => by rw [hperm.mem_iff]
  have hstands (state : CheckState) (name : String) : Stands runs state name ↔ Stands runs' state name :=
    exists_congr fun r => and_congr_left' (hlatest r)
  have hcollapsed := collapsed_latestRuns runs
  have hcollapsed' := collapsed_latestRuns runs'
  have hnames (state : CheckState) (masked : Bool) (name : String) :
      name ∈ ((latestRuns runs).filter (counted lower ignored state masked)).map CheckRun.name ↔
        name ∈ ((latestRuns runs').filter (counted lower ignored state masked)).map CheckRun.name := by
    rw [mem_counted hcollapsed, mem_counted hcollapsed', hstands]
  have hcount (masked : Bool) : ((latestRuns runs).filter (counted lower ignored .failed masked)).length =
      ((latestRuns runs').filter (counted lower ignored .failed masked)).length := by
    have hperm := (List.perm_ext_iff_of_nodup (nodup_counted hcollapsed .failed masked)
      (nodup_counted hcollapsed' .failed masked)).mpr (hnames .failed masked)
    have hlength := hperm.length_eq
    rwa [List.length_map, List.length_map] at hlength
  have hrunning : (latestRuns runs).any (counted lower ignored .running false) =
      (latestRuns runs').any (counted lower ignored .running false) := by
    rw [Bool.eq_iff_iff, any_counted hcollapsed, any_counted hcollapsed']
    exact exists_congr fun name => by rw [hstands]
  have hruns' : runs' ≠ [] := fun hnil => hruns (List.perm_nil.mp (hnil ▸ hperm))
  rw [checkVerdict_eq hruns, checkVerdict_eq hruns', hrunning, hcount]
  exact Tally.agree (hnames .failed false) _ _

end Order

/-- The verdict discounts exactly what is ignored, whatever the patterns, where no check name has a `*`; and for
given patterns it does where no scan holds a `*` of a pattern against one of a name. -/
theorem checkVerdict_discounts_iff (lower : String → String)
    (hlower : ∀ word : String, (∀ c ∈ word.toList, c = '*' ∨ c = '?') → lower word = word) (overall : CheckState)
    (runs : List CheckRun) (hruns : runs ≠ []) :
    ((∀ ignored, DiscountsExactly lower overall runs ignored) ↔ ∀ run ∈ runs, '*' ∉ (lower run.name).toList) ∧
      ∀ ignored, (∀ run ∈ runs, ∀ pattern ∈ ignored, Apart (lower pattern).toList (lower run.name).toList none) →
        DiscountsExactly lower overall runs ignored := by
  have hexact (ignored : List String) (hapart : ∀ run ∈ runs, ∀ pattern ∈ ignored,
      Apart (lower pattern).toList (lower run.name).toList none) : DiscountsExactly lower overall runs ignored := by
    have hmatching : ∀ pattern ∈ ignored, ∀ run ∈ runs,
        globMatch lower pattern run.name = true ↔ Matches lower pattern run.name :=
      fun pattern hpattern run hrun => globScan_exact (hapart run hrun pattern hpattern)
    exact ⟨hmatching, discounts_of_matching hruns overall hmatching, fun hdistinct _ hperm =>
      agree_of_perm lower ignored overall hruns hdistinct hperm⟩
  refine ⟨⟨fun hall run hrun hstar => ?_, fun hnames ignored => ?_⟩, hexact⟩
  · -- against the name with a `*` there is a pattern that fits it and is not found to
    obtain ⟨used, rest, hname⟩ := List.append_of_mem hstar
    have hword : lower (String.ofList (starPattern used rest)) = String.ofList (starPattern used rest) := by
      refine hlower _ fun c hc => ?_
      rw [String.toList_ofList, starPattern] at hc
      simp only [List.mem_append, List.mem_cons, List.mem_replicate, List.not_mem_nil, or_false] at hc
      obtain ⟨_, rfl⟩ | rfl | ⟨_, rfl⟩ := hc
      · exact Or.inr rfl
      · exact Or.inl rfl
      · exact Or.inr rfl
    have hmatching := (hall [String.ofList (starPattern used rest)]).matching _ (List.mem_singleton_self _) run hrun
    simp only [globMatch, Matches, hword, String.toList_ofList, hname, globScan_starPattern] at hmatching
    exact absurd (hmatching.mpr (fits_starPattern used rest)) Bool.false_ne_true
  · exact hexact ignored fun run hrun _ _ => apart_of_name later_none (hnames run hrun) (by simp)

section Example

/-- A check that failed, with a `*` at the start of its name. -/
def starRun : CheckRun := ⟨"*nightly", .failed, none⟩

/-- A `*` that meets a `*` of the name does not stand for more. -/
theorem globScan_lone_star (d : Char) (rest : List Char) :
    globScan ['*'] ('*' :: d :: rest) none later_none = false := by
  rw [globScan.eq_def]
  dsimp only
  rw [if_pos (Or.inr rfl), globScan.eq_def]

/-- The pattern that matches every name does not ignore the check. -/
theorem checkVerdict_star : ¬ Discounts String.toLower [starRun] ["*"]
    (checkVerdict String.toLower ["*"] (some ⟨.failed, [starRun]⟩)) := by
  have hname : (String.toLower "*nightly").toList = ['*', 'n', 'i', 'g', 'h', 't', 'l', 'y'] := by decide +kernel
  have hpattern : (String.toLower "*").toList = ['*'] := by decide +kernel
  have hmissed : nameIgnored String.toLower ["*"] "*nightly" = false := by
    simp only [nameIgnored, List.any_cons, List.any_nil, Bool.or_false, globMatch, hname, hpattern]
    exact globScan_lone_star _ _
  have hverdict : checkVerdict String.toLower ["*"] (some ⟨.failed, [starRun]⟩) = .fail ["*nightly"] := by
    rw [checkVerdict_eq (List.cons_ne_nil _ _)]
    simp [latestRuns, keepLatest, counted, starRun, hmissed, Tally.verdict]
  rw [hverdict]
  rintro ⟨_, _, hnames⟩
  refine ((hnames "*nightly").mp (List.mem_singleton_self _)).2 ⟨"*", List.mem_singleton_self _, ?_⟩
  rw [Matches, hname, hpattern]
  exact .skip ['*', 'n', 'i', 'g', 'h', 't', 'l', 'y'] .nil

/-- A pattern with a `*` that matches a name with one, and passes it by. -/
theorem checkVerdict_discounts_iff_sample :
    Matches id "*lint" "x*lint" ∧ DiscountsExactly id .failed [⟨"x*lint", .failed, none⟩] ["*lint"] := by
  refine ⟨.skip ['x', '*'] ?_, (checkVerdict_discounts_iff id (fun _ _ => rfl) .failed
    [⟨"x*lint", .failed, none⟩] (List.cons_ne_nil _ _)).2 ["*lint"] ?_⟩
  · exact .symbol (by decide) (by decide) (.symbol (by decide) (by decide) (.symbol (by decide) (by decide)
      (.symbol (by decide) (by decide) .nil)))
  · have hother : ∀ d ∈ ['x', '*'], ∀ c, ['l', 'i', 'n', 't'].head? = some c → c ≠ '*' ∧ ¬ (c = '?' ∨ c = d) := by
      simp
    rw [List.forall_mem_singleton, List.forall_mem_singleton]
    refine .run none (by decide) (.back (hother 'x' List.mem_cons_self) (.back (hother '*' (by simp)) ?_))
    exact .symbol (by decide) (by decide) (.symbol (by decide) (by decide) (.symbol (by decide) (by decide)
      (.symbol (by decide) (by decide) (.ended _ _))))

end Example

end Devkit.Ticket
