import Devkit.Log.Prune

/-!
# What a sweep spares

The age pass asks the name of every directory for a date. The size pass asks only for today's name and counts
every directory, so it keeps to the day directories exactly where the others neither hold anything it may delete
when it comes to them nor decide a comparison with the cap, and where the names sort as their dates.
-/

namespace Devkit.Log

open Devkit.Library

section Statement

variable (calendar : Calendar) (settings : Settings) (now : ℤ)

/-- The name is today's or means today's date. -/
def OfToday (name : String) : Prop :=
  name = calendar.dayDir now ∨
    ∃ date, calendar.dayFromName name = some date ∧ calendar.dayFromName (calendar.dayDir now) = some date

/-- The name means a day older than the age cap allows. -/
def OutOfAge (name : String) : Prop :=
  ∃ maxAge today date, settings.maxAgeDays = some maxAge ∧ calendar.dayFromName (calendar.dayDir now) = some today ∧
    calendar.dayFromName name = some date ∧ date < today - maxAge

/-- Both names mean days, the first an older one. -/
def Older (name other : String) : Prop :=
  ∃ date later, calendar.dayFromName name = some date ∧ calendar.dayFromName other = some later ∧ date < later

/-- Whether a directory is named by a date. -/
def isDay (day : Day) : Bool := (calendar.dayFromName day.name).isSome

/-- The bytes in the day directories. -/
def dayBytes (days : List Day) : ℕ := weight dirSize (days.filter (isDay calendar))

/-- The bytes in the other directories. -/
def foreignBytes (days : List Day) : ℕ := weight dirSize (days.filter fun day => !isDay calendar day)

/-- As directories are passed in their order one comes to be another, after those done and before those ahead. -/
def Becomes (olds news done : List Day) (day left : Day) (ahead : List Day) : Prop :=
  ∃ front back, olds = front ++ day :: ahead ∧ news = done ++ left :: back ∧ front.length = done.length

/-- What a sweep must spare and tell. -/
structure Spares (sweep : Sweep) : Prop where
  names : sweep.sized.map Day.name = sweep.before.map Day.name
  empties : sweep.after.Sublist sweep.sized ∧ ∀ day ∈ sweep.sized, day ∉ sweep.after → isEmpty day = true
  files : ∀ done day left ahead, Becomes sweep.before sweep.sized done day left ahead →
    ∀ entry ∈ day.entries.getD [], entry ∉ left.entries.getD [] →
      (∀ modified ∈ entry.modified, recencyWindow ≤ now - modified) ∧ entry.name ≠ "prune.lock" ∧
        isDay calendar day = true
  age : ∀ done day left ahead, Becomes sweep.before sweep.aged done day left ahead → left ≠ day →
    OutOfAge calendar settings now day.name
  today : ∀ done day left ahead, Becomes sweep.aged sweep.sized done day left ahead → OfToday calendar now day.name →
    left = day
  size : ∀ done day left ahead, Becomes sweep.aged sweep.sized done day left ahead → left ≠ day →
    ∃ cap, settings.maxBytes = some cap ∧ cap < dayBytes calendar (done ++ day :: ahead) ∧
      ∀ older ∈ done ++ day :: ahead, Older calendar older.name day.name → ¬ OfToday calendar now older.name →
        removals now older = []
  cap : sweep.out.bailed = false → ∀ cap, settings.maxBytes = some cap →
    (sweep.out.capReached = true ↔ dayBytes calendar sweep.after ≤ cap)

/-- The cutoff of the age pass. -/
def cutoffDate : Option ℤ :=
  settings.maxAgeDays.bind fun maxAge => (calendar.dayFromName (calendar.dayDir now)).map fun date => date - maxAge

/-- The files of a directory that are left to the size pass. -/
def due (day : Day) : List Entry :=
  if tooOld calendar (cutoffDate calendar settings now) day.name then [] else removals now day

/-- The bytes the age pass leaves in a directory. -/
def keptBytes (day : Day) : ℕ :=
  if tooOld calendar (cutoffDate calendar settings now) day.name then dirSize day - weight Entry.size (removals now day)
  else dirSize day

/-- The bytes the size pass may free in a directory. -/
def dueBytes (day : Day) : ℕ :=
  if day.name = calendar.dayDir now then 0 else weight Entry.size (due calendar settings now day)

/-- The bytes in all directories once some have been passed. -/
def tally (days passed : List Day) : ℕ :=
  weight (keptBytes calendar settings now) days - weight (dueBytes calendar settings now) passed

/-- Where the size pass finds something to delete it finds a day, over the cap by the day directories alone, and
after every older one; and where it ends over the cap the day directories alone are. -/
structure Measured (cap : ℕ) (days : List Day) : Prop where
  reached : ∀ passed day rest, days = passed ++ day :: rest → day.name ≠ calendar.dayDir now →
    due calendar settings now day ≠ [] → cap < tally calendar settings now days passed →
      isDay calendar day = true ∧ ¬ OfToday calendar now day.name ∧
        cap + foreignBytes calendar days < tally calendar settings now days passed ∧
        ∀ older ∈ rest, Older calendar older.name day.name → ¬ OfToday calendar now older.name →
          due calendar settings now older = []
  ended : cap < tally calendar settings now days days →
    cap + foreignBytes calendar days < tally calendar settings now days days

end Statement

section Closed

variable {calendar : Calendar} {settings : Settings} {now : ℤ}

/-- A name is too old exactly where it means a day past the age cap. -/
theorem tooOld_iff {name : String} :
    tooOld calendar (cutoffDate calendar settings now) name = true ↔ OutOfAge calendar settings now name := by
  unfold tooOld cutoffDate OutOfAge
  cases settings.maxAgeDays with
  | none => simp
  | some maxAge =>
    cases calendar.dayFromName (calendar.dayDir now) with
    | none => simp
    | some today =>
      cases calendar.dayFromName name with
      | none => simp
      | some date => simp

/-- A directory too old is a day. -/
theorem isDay_of_tooOld {cutoff : Option ℤ} {day : Day} (h : tooOld calendar cutoff day.name = true) :
    isDay calendar day = true := by
  unfold tooOld at h
  split at h
  · rename_i hdate
    rw [isDay, hdate]
    rfl
  · cases h

theorem cutoffOf_eq_some {cutoff : Option ℤ} (h : cutoffOf calendar settings (calendar.dayDir now) = some cutoff) :
    cutoff = cutoffDate calendar settings now := by
  unfold cutoffOf at h
  unfold cutoffDate
  cases hage : settings.maxAgeDays with
  | none =>
    rw [hage] at h
    exact (Option.some.inj h).symm
  | some maxAge =>
    cases hdate : calendar.dayFromName (calendar.dayDir now) with
    | none =>
      rw [hage, hdate] at h
      exact (Option.some.inj h).symm
    | some date =>
      rw [hage, hdate] at h
      dsimp only at h
      split at h
      · exact (Option.some.inj h).symm
      · cases h

variable (calendar settings now) in
/-- A directory after the age pass. -/
def agedOf (day : Day) : Day := agedDay calendar (cutoffDate calendar settings now) now day

variable (calendar settings now) in
/-- A directory after both passes, where the size pass comes to it. -/
def sweptOf (day : Day) : Day := sizedDay (calendar.dayDir now) now (agedOf calendar settings now day)

variable (calendar settings now) in
/-- The directories after both passes under a size cap, and the running total. -/
def drained (cap : ℕ) (days : List Day) : List Day × ℕ :=
  drain cap (sizedDay (calendar.dayDir now) now) (freedBytes (calendar.dayDir now) now)
    (weight dirSize (days.map (agedOf calendar settings now))) (days.map (agedOf calendar settings now))

/-- Both passes keep the name. -/
@[simp] theorem agedOf_name (day : Day) : (agedOf calendar settings now day).name = day.name := by
  rw [agedOf, agedDay]
  split <;> rfl

@[simp] theorem sizedDay_name (today : String) (day : Day) : (sizedDay today now day).name = day.name := by
  rw [sizedDay]
  split <;> rfl

@[simp] theorem sweptOf_name (day : Day) : (sweptOf calendar settings now day).name = day.name := by
  rw [sweptOf, sizedDay_name, agedOf_name]

/-- The age pass leaves the bytes it keeps. -/
theorem dirSize_agedOf (day : Day) : dirSize (agedOf calendar settings now day) =
    keptBytes calendar settings now day := by
  rw [agedOf, agedDay, keptBytes]
  split
  · rw [← dirSize_emptied now day, Nat.add_sub_cancel]
  · rfl

/-- What is deletable after the age pass is left to the size pass. -/
theorem removals_agedOf (day : Day) : removals now (agedOf calendar settings now day) =
    due calendar settings now day := by
  rw [agedOf, agedDay, due]
  split
  · exact removals_emptied now day
  · rfl

theorem freedBytes_agedOf (day : Day) :
    freedBytes (calendar.dayDir now) now (agedOf calendar settings now day) = dueBytes calendar settings now day := by
  rw [freedBytes, agedOf_name, removals_agedOf, dueBytes]

variable (calendar settings now) in
/-- The running total of the size pass is the tally. -/
theorem tally_eq (days passed : List Day) :
    weight dirSize (days.map (agedOf calendar settings now)) -
        weight (freedBytes (calendar.dayDir now) now) (passed.map (agedOf calendar settings now)) =
      tally calendar settings now days passed := by
  rw [weight_map, weight_map, weight_congr fun day _ => dirSize_agedOf day,
    weight_congr fun day _ => freedBytes_agedOf day]
  rfl

/-- Once the tally is within the cap a directory stays as the age pass left it; before that it is swept. -/
theorem drained_at {cap : ℕ} {days passed done back rest : List Day} {day left : Day}
    (hdays : days = passed ++ day :: rest)
    (hsized : (drained calendar settings now cap days).1 = done ++ left :: back)
    (hlength : passed.length = done.length) :
    (tally calendar settings now days passed ≤ cap ∧ left = agedOf calendar settings now day) ∨
      (cap < tally calendar settings now days passed ∧ left = sweptOf calendar settings now day ∧
        done = passed.map (sweptOf calendar settings now)) := by
  have haged : days.map (agedOf calendar settings now) = passed.map (agedOf calendar settings now) ++
      agedOf calendar settings now day :: rest.map (agedOf calendar settings now) := by
    rw [hdays, List.map_append, List.map_cons]
  have htally := tally_eq calendar settings now days passed
  rw [drained, haged] at hsized
  rw [haged] at htally
  rcases le_or_gt (tally calendar settings now days passed) cap with hwithin | hover
  · left
    obtain ⟨front, hfront, hstop⟩ := drain_stop (htally ▸ hwithin)
      (agedOf calendar settings now day :: rest.map (agedOf calendar settings now))
    rw [hstop] at hsized
    obtain ⟨_, hleft⟩ := List.append_inj hsized (by rw [hfront, List.length_map, hlength])
    exact ⟨hwithin, (List.cons.inj hleft).1.symm⟩
  · right
    rw [drain_over (htally ▸ hover), htally, drain, if_neg (not_le.mpr hover)] at hsized
    obtain ⟨hdone, hleft⟩ := List.append_inj hsized (by rw [List.length_map, List.length_map, hlength])
    rw [List.map_map] at hdone
    exact ⟨hover, (List.cons.inj hleft).1.symm, hdone.symm⟩

/-- Over the cap a directory is swept after those before it. -/
theorem drained_over {cap : ℕ} {days passed rest : List Day} {day : Day} (hdays : days = passed ++ day :: rest)
    (hover : cap < tally calendar settings now days passed) :
    ∃ back, (drained calendar settings now cap days).1 =
      passed.map (sweptOf calendar settings now) ++ sweptOf calendar settings now day :: back := by
  have haged : days.map (agedOf calendar settings now) = passed.map (agedOf calendar settings now) ++
      agedOf calendar settings now day :: rest.map (agedOf calendar settings now) := by
    rw [hdays, List.map_append, List.map_cons]
  have htally := tally_eq calendar settings now days passed
  rw [haged] at htally
  rw [drained, haged, drain_over (htally ▸ hover), htally, drain, if_neg (not_le.mpr hover), List.map_map]
  exact ⟨_, rfl⟩

/-- Where the tally stays over the cap to the end every directory is swept. -/
theorem drained_all {cap : ℕ} {days : List Day} (hover : cap < tally calendar settings now days days) :
    (drained calendar settings now cap days).1 = days.map (sweptOf calendar settings now) := by
  have hover : cap < weight dirSize (days.map (agedOf calendar settings now)) -
      weight (freedBytes (calendar.dayDir now) now) (days.map (agedOf calendar settings now)) :=
    tally_eq calendar settings now days days ▸ hover
  have hall : drain cap (sizedDay (calendar.dayDir now) now) _ _ (days.map (agedOf calendar settings now) ++ []) = _ :=
    drain_over hover []
  rw [List.append_nil, drain, List.append_nil, List.map_map] at hall
  exact congrArg Prod.fst hall

/-- The size pass ends within the cap exactly when the tally of all does. -/
theorem drained_total_le_iff {cap : ℕ} {days : List Day} :
    (drained calendar settings now cap days).2 ≤ cap ↔ tally calendar settings now days days ≤ cap := by
  rw [drained, drain_total_le_iff, tally_eq]

/-- The running total is what the directories hold. -/
theorem drained_total (cap : ℕ) (days : List Day) :
    (drained calendar settings now cap days).2 = weight dirSize (drained calendar settings now cap days).1 :=
  drain_total (dirSize_sizedDay (calendar.dayDir now)) _

end Closed

section Bytes

variable {calendar : Calendar} {settings : Settings} {now : ℤ}

variable (calendar) in
theorem dayBytes_add_foreignBytes (days : List Day) :
    dayBytes calendar days + foreignBytes calendar days = weight dirSize days :=
  weight_filter_add (isDay calendar) days

theorem isDay_congr {day other : Day} (h : other.name = day.name) : isDay calendar other = isDay calendar day := by
  rw [isDay, isDay, h]

/-- A directory that is no day is not aged out. -/
theorem agedOf_foreign {day : Day} (hforeign : isDay calendar day = false) :
    agedOf calendar settings now day = day := by
  rw [agedOf, agedDay, if_neg]
  intro hold
  rw [isDay_of_tooOld hold] at hforeign
  cases hforeign

/-- Where nothing is due the size pass leaves a directory. -/
theorem sweptOf_of_due_eq_nil {day : Day} (h : due calendar settings now day = []) :
    sweptOf calendar settings now day = agedOf calendar settings now day := by
  rw [sweptOf, sizedDay]
  split
  · rfl
  · exact emptied_eq_self ((removals_agedOf day).trans h)

theorem sweptOf_today {day : Day} (h : day.name = calendar.dayDir now) :
    sweptOf calendar settings now day = agedOf calendar settings now day := by
  rw [sweptOf, sizedDay, if_pos ((agedOf_name day).trans h)]

/-- What a swept directory holds and what was due make up what the age pass kept. -/
theorem dirSize_sweptOf (day : Day) :
    dirSize (sweptOf calendar settings now day) + dueBytes calendar settings now day =
      keptBytes calendar settings now day := by
  rw [← freedBytes_agedOf, sweptOf, dirSize_sizedDay, dirSize_agedOf]

/-- With some directories swept and the rest aged, all hold the tally together. -/
theorem weight_state {days passed rest : List Day} (hdays : days = passed ++ rest) :
    weight dirSize (passed.map (sweptOf calendar settings now) ++ rest.map (agedOf calendar settings now)) =
      tally calendar settings now days passed := by
  have hpassed : weight (fun day => dirSize (sweptOf calendar settings now day)) passed +
      weight (dueBytes calendar settings now) passed = weight (keptBytes calendar settings now) passed := by
    rw [← weight_add]
    exact weight_congr fun day _ => dirSize_sweptOf day
  have hrest : weight (fun day => dirSize (agedOf calendar settings now day)) rest =
    weight (keptBytes calendar settings now) rest :=
    weight_congr fun day _ => dirSize_agedOf day
  rw [weight_append, weight_map, weight_map, hrest, tally, hdays, weight_append, ← hpassed]
  omega

/-- Passes that leave the directories that are no days leave their bytes. -/
theorem foreignBytes_map {f : Day → Day} {days : List Day} (hname : ∀ day, (f day).name = day.name)
    (hself : ∀ day ∈ days, isDay calendar day = false → f day = day) :
    foreignBytes calendar (days.map f) = foreignBytes calendar days := by
  have hfilter : (days.map f).filter (fun day => !isDay calendar day) =
    days.filter (fun day => !isDay calendar day) := by
    rw [List.filter_map]
    have hcongr : (days.filter ((fun day => !isDay calendar day) ∘ f)) = days.filter (fun day => !isDay calendar day) :=
      List.filter_congr fun day _ => congrArg not (isDay_congr (hname day))
    rw [hcongr]
    refine (List.map_congr_left fun day hday => ?_).trans (List.map_id _)
    obtain ⟨hin, hnot⟩ := List.mem_filter.mp hday
    exact hself day hin (by simpa using hnot)
  rw [foreignBytes, hfilter, foreignBytes]

theorem foreignBytes_append (front back : List Day) :
    foreignBytes calendar (front ++ back) = foreignBytes calendar front + foreignBytes calendar back := by
  rw [foreignBytes, List.filter_append, weight_append, foreignBytes, foreignBytes]

/-- As more directories are passed the tally shrinks. -/
theorem tally_le (days front back : List Day) :
    tally calendar settings now days (front ++ back) ≤ tally calendar settings now days front := by
  rw [tally, tally, weight_append]
  omega

/-- What the size pass may delete from where it comes it finds in days. -/
def OnlyDays (calendar : Calendar) (settings : Settings) (now : ℤ) (cap : ℕ) (days : List Day) : Prop :=
  ∀ passed day rest, days = passed ++ day :: rest → day.name ≠ calendar.dayDir now →
    due calendar settings now day ≠ [] → cap < tally calendar settings now days passed → isDay calendar day = true

/-- Over the cap the directories passed that are no days are as they were. -/
theorem OnlyDays.untouched {cap : ℕ} {days passed rest : List Day} (h : OnlyDays calendar settings now cap days)
    (hdays : days = passed ++ rest) (hover : cap < tally calendar settings now days passed) :
    ∀ day ∈ passed, isDay calendar day = false → sweptOf calendar settings now day = day := by
  intro day hday hforeign
  by_cases htoday : day.name = calendar.dayDir now
  · rw [sweptOf_today htoday, agedOf_foreign hforeign]
  by_cases hdue : due calendar settings now day = []
  · rw [sweptOf_of_due_eq_nil hdue, agedOf_foreign hforeign]
  obtain ⟨front, back, rfl⟩ := List.append_of_mem hday
  have hsplit : days = front ++ day :: (back ++ rest) := by rw [hdays, List.append_assoc, List.cons_append]
  have hyes := h front day (back ++ rest) hsplit htoday hdue (hover.trans_le (tally_le days front (day :: back)))
  rw [hforeign] at hyes
  cases hyes

/-- Over the cap the day directories hold the tally but for what the others hold. -/
theorem OnlyDays.dayBytes_state {cap : ℕ} {days passed rest : List Day} (h : OnlyDays calendar settings now cap days)
    (hdays : days = passed ++ rest) (hover : cap < tally calendar settings now days passed) :
    dayBytes calendar (passed.map (sweptOf calendar settings now) ++ rest.map (agedOf calendar settings now)) +
      foreignBytes calendar days = tally calendar settings now days passed := by
  have hforeign : foreignBytes calendar
      (passed.map (sweptOf calendar settings now) ++ rest.map (agedOf calendar settings now)) =
        foreignBytes calendar days := by
    rw [foreignBytes_append, foreignBytes_map sweptOf_name (h.untouched hdays hover),
      foreignBytes_map agedOf_name fun day _ hnot => agedOf_foreign hnot, hdays, foreignBytes_append]
  rw [← weight_state hdays, ← dayBytes_add_foreignBytes, hforeign]

end Bytes

section Run

variable {calendar : Calendar} {settings : Settings} {now : ℤ}

/-- What a sweep comes to without a directory to sweep or its lock. -/
def Bails (root : Option Root) (days : List Day) (sweep : Sweep) : Prop :=
  (root = none ∨ ∃ r, root = some r ∧ r.lock ≠ .free) ∧ ∃ out, sweep = Sweep.nothing out days ∧
    (out.bailed = false → days = [] ∧ out.capReached = true)

/-- A sweep that takes the lock runs both passes. -/
theorem sweepAt_cases {root : Option Root} {sweep : Sweep} (h : sweepAt calendar settings root now = some sweep) :
    (∃ days, Bails root days sweep) ∨
    ∃ r, root = some r ∧ r.lock = .free ∧ sweep.before = sortedDays r.dirs ∧
      sweep.aged = (sortedDays r.dirs).map (agedOf calendar settings now) ∧
      sweep.after = sweep.sized.filter (fun day => !(isEmpty day && day.removable)) ∧
      sweep.out.bailed = false ∧
      match settings.maxBytes with
      | none => sweep.sized = sweep.aged
      | some cap => sweep.sized = (drained calendar settings now cap (sortedDays r.dirs)).1 ∧
          (sweep.out.capReached = true ↔ (drained calendar settings now cap (sortedDays r.dirs)).2 ≤ cap) := by
  cases root with
  | none =>
    obtain rfl := Option.some.inj h
    exact Or.inl ⟨[], Or.inl rfl, _, rfl, fun _ => ⟨rfl, rfl⟩⟩
  | some root =>
    rw [sweepAt] at h
    cases hlock : root.lock with
    | unopened =>
      rw [hlock] at h
      obtain rfl := Option.some.inj h
      exact Or.inl ⟨_, Or.inr ⟨root, rfl, by rw [hlock]; nofun⟩, _, rfl, nofun⟩
    | held =>
      rw [hlock] at h
      obtain rfl := Option.some.inj h
      exact Or.inl ⟨_, Or.inr ⟨root, rfl, by rw [hlock]; nofun⟩, _, rfl, nofun⟩
    | free =>
      rw [hlock] at h
      obtain ⟨cutoff, hcutoff, hsweep⟩ := Option.map_eq_some_iff.mp h
      obtain rfl := cutoffOf_eq_some hcutoff
      refine Or.inr ⟨root, rfl, hlock, ?_⟩
      have haged : (agePass calendar (cutoffDate calendar settings now) now (sortedDays root.dirs) Outcome.start).1 =
          (sortedDays root.dirs).map (agedOf calendar settings now) := (agePass_eq _ _ _).1
      cases hcap : settings.maxBytes with
      | none =>
        rw [hcap] at hsweep
        subst hsweep
        exact ⟨rfl, haged, (removeEmpty_eq _ _).1, (removeEmpty_eq _ _).2.1.trans (agePass_eq _ _ _).2.1, rfl⟩
      | some cap =>
        rw [hcap] at hsweep
        subst hsweep
        obtain ⟨hsized, htotal, hbailed⟩ := sizePass_eq (calendar.dayDir now) cap
          (agePass calendar (cutoffDate calendar settings now) now (sortedDays root.dirs) Outcome.start).1
          (((agePass calendar (cutoffDate calendar settings now) now
            (sortedDays root.dirs) Outcome.start).1.map dirSize).sum)
          (agePass calendar (cutoffDate calendar settings now) now (sortedDays root.dirs) Outcome.start).2
        refine ⟨rfl, haged, (removeEmpty_eq _ _).1,
          (removeEmpty_eq _ _).2.1.trans (hbailed.trans (agePass_eq _ _ _).2.1), ?_, ?_⟩
        · rw [drained, ← haged]
          exact hsized
        · rw [drained, ← haged]
          refine (iff_of_eq (congrArg (· = true) (removeEmpty_eq _ _).2.2)).trans ?_
          rw [decide_eq_true_iff]
          exact iff_of_eq (congrArg (· ≤ cap) htotal)

end Run

section Files

variable {calendar : Calendar} {settings : Settings} {now : ℤ} {entry : Entry} {day : Day}

/-- A deletable file of a day may go: it was last written before the recency window, and is no lock. -/
theorem spared_of_deletable (h : deletable now entry = true) (hday : isDay calendar day = true) :
    (∀ modified ∈ entry.modified, recencyWindow ≤ now - modified) ∧ entry.name ≠ "prune.lock" ∧
      isDay calendar day = true := by
  obtain ⟨_, hlock, hfresh, _⟩ := deletable_iff.mp h
  refine ⟨fun modified hmodified => ?_, hlock, hday⟩
  rw [isFresh, hmodified] at hfresh
  dsimp only at hfresh
  split at hfresh
  · exact not_lt.mp (of_decide_eq_false hfresh)
  · cases hfresh

/-- What the age pass takes is deletable, from a day. -/
theorem gone_agedOf (hin : entry ∈ day.entries.getD [])
    (hout : entry ∉ (agedOf calendar settings now day).entries.getD []) :
    deletable now entry = true ∧ isDay calendar day = true := by
  rw [agedOf, agedDay] at hout
  split at hout
  · rename_i hold
    exact ⟨(List.mem_filter.mp (mem_removals hin hout)).2, isDay_of_tooOld hold⟩
  · exact absurd hin hout

/-- What the size pass takes was due, from a directory not named today. -/
theorem gone_sweptOf (hin : entry ∈ (agedOf calendar settings now day).entries.getD [])
    (hout : entry ∉ (sweptOf calendar settings now day).entries.getD []) :
    day.name ≠ calendar.dayDir now ∧ entry ∈ due calendar settings now day := by
  rw [sweptOf, sizedDay, agedOf_name] at hout
  split at hout
  · exact absurd hin hout
  · rename_i hname
    have hdue : removals now (agedOf calendar settings now day) = due calendar settings now day := removals_agedOf day
    exact ⟨hname, hdue ▸ mem_removals hin hout⟩

theorem deletable_of_due (h : entry ∈ due calendar settings now day) :
    deletable now entry = true ∧ entry ∈ day.entries.getD [] ∧ agedOf calendar settings now day = day := by
  rw [due] at h
  split at h
  · cases h
  · rename_i hyoung
    obtain ⟨hin, hdeletable⟩ := List.mem_filter.mp h
    exact ⟨hdeletable, hin, if_neg hyoung⟩

/-- Swept of what was due a directory has nothing deletable. -/
theorem removals_sweptOf (hname : day.name ≠ calendar.dayDir now) :
    removals now (sweptOf calendar settings now day) = [] := by
  rw [sweptOf, sizedDay, agedOf_name, if_neg hname]
  exact removals_emptied now _

/-- Something due, the size pass changes a directory not named today. -/
theorem sweptOf_ne (hname : day.name ≠ calendar.dayDir now) (hdue : due calendar settings now day ≠ []) :
    sweptOf calendar settings now day ≠ agedOf calendar settings now day := by
  intro heq
  have hnil : removals now (agedOf calendar settings now day) = [] := heq ▸ removals_sweptOf hname
  exact hdue ((removals_agedOf day).symm.trans hnil)

/-- The directories removed last held nothing. -/
theorem empties_removed {sweep : Sweep} (hafter : sweep.after =
    sweep.sized.filter fun day => !(isEmpty day && day.removable)) :
    sweep.after.Sublist sweep.sized ∧ ∀ day ∈ sweep.sized, day ∉ sweep.after → isEmpty day = true := by
  rw [hafter]
  refine ⟨List.filter_sublist, fun day hin hout => ?_⟩
  by_contra hempty
  have hempty : isEmpty day = false := Bool.not_eq_true _ ▸ hempty
  exact hout (List.mem_filter.mpr ⟨hin, by rw [hempty]; rfl⟩)

/-- The age pass makes of every directory what it makes of it alone. -/
theorem aged_at {days done ahead : List Day} {left : Day}
    (h : Becomes days (days.map (agedOf calendar settings now)) done day left ahead) :
      left = agedOf calendar settings now day := by
  obtain ⟨front, back, hfront, hdone, hlength⟩ := h
  rw [hfront, List.map_append, List.map_cons] at hdone
  exact (List.cons.inj (List.append_inj hdone (by rw [List.length_map, hlength])).2).1.symm

/-- The age pass changes only days older than the cutoff. -/
theorem age_removed {days : List Day} {sweep : Sweep} (hbefore : sweep.before = days)
    (haged : sweep.aged = days.map (agedOf calendar settings now)) (done : List Day) (day left : Day) (ahead : List Day)
    (h : Becomes sweep.before sweep.aged done day left ahead) (hne : left ≠ day) :
      OutOfAge calendar settings now day.name := by
  rw [hbefore, haged] at h
  rw [← tooOld_iff]
  by_contra hyoung
  exact hne ((aged_at h).trans (if_neg hyoung))

/-- Where nothing becomes anything else every directory stays. -/
theorem becomes_self {days done ahead : List Day} {left : Day} (h : Becomes days days done day left ahead) :
    left = day := by
  obtain ⟨front, back, hfront, hdone, hlength⟩ := h
  exact (List.cons.inj (List.append_inj (hfront.symm.trans hdone) hlength).2).1.symm

/-- Directories that hold nothing hold no bytes. -/
theorem dayBytes_nonempty (days : List Day) :
    dayBytes calendar (days.filter fun day => !(isEmpty day && day.removable)) = dayBytes calendar days := by
  have hboth : weight dirSize ((days.filter (isDay calendar)).filter fun day => !(isEmpty day && day.removable)) +
      weight dirSize ((days.filter (isDay calendar)).filter fun day => !!(isEmpty day && day.removable)) =
        weight dirSize (days.filter (isDay calendar)) := weight_filter_add _ _
  have hnone : weight dirSize ((days.filter (isDay calendar)).filter fun day =>
    !!(isEmpty day && day.removable)) = 0 := by
    refine weight_eq_zero fun day hday => ?_
    have hempty := (List.mem_filter.mp hday).2
    rw [Bool.not_not, Bool.and_eq_true] at hempty
    rw [dirSize, eq_of_beq hempty.1]
    rfl
  rw [hnone, Nat.add_zero, List.filter_comm] at hboth
  exact hboth

end Files

section Capped

variable {calendar : Calendar} {settings : Settings} {now : ℤ} {cap : ℕ} {days : List Day} {sweep : Sweep}

/-- What a sweep that takes the lock does under a size cap. -/
structure Capped (calendar : Calendar) (settings : Settings) (now : ℤ) (cap : ℕ) (days : List Day)
    (sweep : Sweep) : Prop where
  maxBytes : settings.maxBytes = some cap
  before : sweep.before = days
  aged : sweep.aged = days.map (agedOf calendar settings now)
  sized : sweep.sized = (drained calendar settings now cap days).1
  after : sweep.after = sweep.sized.filter fun day => !(isEmpty day && day.removable)
  bailed : sweep.out.bailed = false
  reached : sweep.out.capReached = true ↔ (drained calendar settings now cap days).2 ≤ cap

/-- Where the size pass changes a directory it is over the cap, after sweeping those before, and finds something. -/
theorem Capped.moved (h : Capped calendar settings now cap days sweep) {done ahead : List Day} {day left : Day}
    (hbecomes : Becomes sweep.aged sweep.sized done day left ahead) (hne : left ≠ day) :
    ∃ passed named rest, days = passed ++ named :: rest ∧ day = agedOf calendar settings now named ∧
      ahead = rest.map (agedOf calendar settings now) ∧ done = passed.map (sweptOf calendar settings now) ∧
      named.name ≠ calendar.dayDir now ∧ due calendar settings now named ≠ [] ∧
      cap < tally calendar settings now days passed := by
  obtain ⟨front, back, hfront, hdone, hlength⟩ := hbecomes
  rw [h.aged] at hfront
  obtain ⟨passed, more, hdays, hpassed, hmore⟩ := List.map_eq_append_iff.mp hfront
  obtain ⟨named, rest, rfl, rfl, rfl⟩ := List.map_eq_cons_iff.mp hmore
  rw [h.sized] at hdone
  have hlength : passed.length = done.length := by rw [← hlength, ← hpassed, List.length_map]
  rcases drained_at hdays hdone hlength with ⟨_, hleft⟩ | ⟨hover, hleft, hdone⟩
  · exact absurd hleft hne
  · refine ⟨passed, named, rest, hdays, rfl, rfl, hdone, fun htoday => ?_, fun hdue => ?_, hover⟩
    · exact hne (hleft.trans (sweptOf_today htoday))
    · exact hne (hleft.trans (sweptOf_of_due_eq_nil hdue))

/-- The bytes left in the day directories are those after the size pass. -/
theorem Capped.dayBytes_after (h : Capped calendar settings now cap days sweep) :
    dayBytes calendar sweep.after = dayBytes calendar (drained calendar settings now cap days).1 := by
  rw [h.after, dayBytes_nonempty, h.sized]

/-- Over the cap to the end, the day directories hold the tally but for what the others hold. -/
theorem Capped.dayBytes_ended (h : Capped calendar settings now cap days sweep)
    (honly : OnlyDays calendar settings now cap days) (hover : cap < tally calendar settings now days days) :
    dayBytes calendar sweep.after + foreignBytes calendar days = tally calendar settings now days days := by
  have hstate := honly.dayBytes_state (List.append_nil days).symm hover
  rwa [List.map_nil, List.append_nil, ← drained_all hover, ← h.dayBytes_after] at hstate

/-- Measured, a sweep spares what it must. -/
theorem Measured.spares (hmeasured : Measured calendar settings now cap days)
    (h : Capped calendar settings now cap days sweep) : Spares calendar settings now sweep := by
  have honly : OnlyDays calendar settings now cap days := fun passed day rest hdays hname hdue hover =>
    (hmeasured.reached passed day rest hdays hname hdue hover).1
  refine ⟨?_, empties_removed h.after, ?_, age_removed h.before h.aged, ?_, ?_, ?_⟩
  · rw [h.sized, h.before, drained, drain_map (sizedDay_name _), List.map_map]
    exact List.map_congr_left fun day _ => agedOf_name day
  · rintro done day left ahead ⟨front, back, hfront, hdone, hlength⟩ entry hin hout
    rw [h.before] at hfront
    rw [h.sized] at hdone
    rcases drained_at hfront hdone hlength with ⟨_, rfl⟩ | ⟨hover, rfl, _⟩
    · exact (gone_agedOf hin hout).elim spared_of_deletable
    · by_cases haged : entry ∈ (agedOf calendar settings now day).entries.getD []
      · obtain ⟨hname, hdue⟩ := gone_sweptOf haged hout
        exact spared_of_deletable (deletable_of_due hdue).1
          (honly front day ahead hfront hname (List.ne_nil_of_mem hdue) hover)
      · exact (gone_agedOf hin haged).elim spared_of_deletable
  · intro done day left ahead hbecomes htoday
    by_contra hne
    obtain ⟨passed, named, rest, hdays, rfl, _, _, hname, hdue, hover⟩ := h.moved hbecomes hne
    rw [agedOf_name] at htoday
    exact (hmeasured.reached passed named rest hdays hname hdue hover).2.1 htoday
  · intro done day left ahead hbecomes hne
    obtain ⟨passed, named, rest, hdays, rfl, rfl, rfl, hname, hdue, hover⟩ := h.moved hbecomes hne
    obtain ⟨_, _, hbytes, holder⟩ := hmeasured.reached passed named rest hdays hname hdue hover
    have hstate := honly.dayBytes_state hdays hover
    rw [List.map_cons] at hstate
    refine ⟨cap, h.maxBytes, by omega, fun older hin hage htoday => ?_⟩
    rw [agedOf_name] at hage
    rcases List.mem_append.mp hin with hdone | hin
    · obtain ⟨early, _, rfl⟩ := List.mem_map.mp hdone
      refine removals_sweptOf fun hearly => htoday (Or.inl ?_)
      rw [sweptOf_name, hearly]
    · rcases List.mem_cons.mp hin with rfl | hahead
      · obtain ⟨date, later, hdate, hlater, hlt⟩ := hage
        rw [agedOf_name, hlater] at hdate
        obtain rfl := Option.some.inj hdate
        exact absurd hlt (lt_irrefl _)
      · obtain ⟨late, hlate, rfl⟩ := List.mem_map.mp hahead
        rw [agedOf_name] at hage htoday
        rw [removals_agedOf]
        exact holder late hlate hage htoday
  · intro _ other hother
    obtain rfl := Option.some.inj (h.maxBytes.symm.trans hother)
    rw [h.reached, drained_total_le_iff]
    rcases le_or_gt (tally calendar settings now days days) cap with hwithin | hover
    · refine iff_of_true hwithin ?_
      have htotal := drained_total_le_iff.mpr hwithin
      rw [drained_total, ← dayBytes_add_foreignBytes calendar] at htotal
      rw [h.dayBytes_after]
      omega
    · refine iff_of_false (not_le.mpr hover) ?_
      have hended := h.dayBytes_ended honly hover
      have hbytes := hmeasured.ended hover
      omega

/-- A sweep that spares what it must finds something to delete in days only. -/
theorem Spares.onlyDays (hspares : Spares calendar settings now sweep)
    (h : Capped calendar settings now cap days sweep) :
    OnlyDays calendar settings now cap days := by
  intro passed day rest hdays hname hdue hover
  obtain ⟨entry, hentry⟩ := List.exists_mem_of_ne_nil _ hdue
  obtain ⟨hdeletable, hin, haged⟩ := deletable_of_due hentry
  obtain ⟨back, hback⟩ := drained_over hdays hover
  have hbecomes : Becomes sweep.before sweep.sized (passed.map (sweptOf calendar settings now)) day
      (sweptOf calendar settings now day) rest :=
    ⟨passed, back, h.before.trans hdays, h.sized.trans hback, (List.length_map _).symm⟩
  refine (hspares.files _ _ _ _ hbecomes entry hin fun hleft => ?_).2.2
  have hremoved : entry ∈ removals now (sweptOf calendar settings now day) := List.mem_filter.mpr ⟨hleft, hdeletable⟩
  rw [removals_sweptOf hname] at hremoved
  cases hremoved

/-- A sweep that spares what it must was measured. -/
theorem Spares.measured (hspares : Spares calendar settings now sweep)
    (h : Capped calendar settings now cap days sweep) :
    Measured calendar settings now cap days := by
  have honly := hspares.onlyDays h
  constructor
  · intro passed day rest hdays hname hdue hover
    obtain ⟨back, hback⟩ := drained_over hdays hover
    have hbecomes : Becomes sweep.aged sweep.sized (passed.map (sweptOf calendar settings now))
        (agedOf calendar settings now day) (sweptOf calendar settings now day)
          (rest.map (agedOf calendar settings now)) :=
      ⟨passed.map (agedOf calendar settings now), back, by rw [h.aged, hdays, List.map_append, List.map_cons],
        h.sized.trans hback, by rw [List.length_map, List.length_map]⟩
    have hne := sweptOf_ne hname hdue
    obtain ⟨other, hother, hbytes, holder⟩ := hspares.size _ _ _ _ hbecomes hne
    obtain rfl := Option.some.inj (h.maxBytes.symm.trans hother)
    have hstate := honly.dayBytes_state hdays hover
    rw [List.map_cons] at hstate
    refine ⟨honly passed day rest hdays hname hdue hover, fun htoday => hne ?_, by omega,
      fun older hin hage htoday => ?_⟩
    · exact hspares.today _ _ _ _ hbecomes (by rwa [agedOf_name])
    · rw [← removals_agedOf]
      refine holder _ (List.mem_append_right _ (List.mem_cons_of_mem _ (List.mem_map_of_mem hin))) ?_ ?_
      · rwa [agedOf_name, agedOf_name]
      · rwa [agedOf_name]
  · intro hover
    have hreached : ¬ sweep.out.capReached = true := by
      rw [h.reached, drained_total_le_iff]
      exact not_le.mpr hover
    rw [hspares.cap h.bailed cap h.maxBytes] at hreached
    have hended := h.dayBytes_ended honly hover
    omega

end Capped

section Verdict

variable {calendar : Calendar} {settings : Settings} {now : ℤ}

/-- A sweep that bails changes nothing. -/
theorem Bails.spares {root : Option Root} {days : List Day} {sweep : Sweep} (h : Bails root days sweep) :
    Spares calendar settings now sweep := by
  obtain ⟨_, out, rfl, hout⟩ := h
  refine ⟨rfl, ⟨List.Sublist.refl days, fun day hin hout => absurd hin hout⟩, ?_, ?_, ?_, ?_, ?_⟩
  · intro done day left ahead hbecomes entry hin hout
    exact absurd (becomes_self hbecomes ▸ hin) hout
  · exact fun done day left ahead hbecomes hne => absurd (becomes_self hbecomes) hne
  · exact fun done day left ahead hbecomes _ => becomes_self hbecomes
  · exact fun done day left ahead hbecomes hne => absurd (becomes_self hbecomes) hne
  · intro hbailed cap _
    obtain ⟨rfl, hreached⟩ := hout hbailed
    exact iff_of_true hreached (Nat.zero_le cap)

/-- Without a size cap a sweep spares what it must. -/
theorem spares_uncapped {days : List Day} {sweep : Sweep} (hcap : settings.maxBytes = none)
    (hbefore : sweep.before = days)
    (haged : sweep.aged = days.map (agedOf calendar settings now)) (hsized : sweep.sized = sweep.aged)
    (hafter : sweep.after = sweep.sized.filter fun day => !(isEmpty day && day.removable)) :
    Spares calendar settings now sweep := by
  refine ⟨?_, empties_removed hafter, ?_, age_removed hbefore haged, ?_, ?_, ?_⟩
  · rw [hsized, haged, hbefore, List.map_map]
    exact List.map_congr_left fun day _ => agedOf_name day
  · intro done day left ahead hbecomes entry hin hout
    rw [hsized, hbefore, haged] at hbecomes
    rw [aged_at hbecomes] at hout
    exact (gone_agedOf hin hout).elim spared_of_deletable
  · exact fun done day left ahead hbecomes _ => becomes_self (hsized ▸ hbecomes)
  · exact fun done day left ahead hbecomes hne => absurd (becomes_self (hsized ▸ hbecomes)) hne
  · intro _ cap hother
    rw [hcap] at hother
    cases hother

/-- A sweep spares what it must exactly where it bails, has no size cap, or the size pass is measured. -/
theorem sweepAt_spares (calendar : Calendar) (settings : Settings) (root : Option Root) (now : ℤ) (sweep : Sweep)
    (h : sweepAt calendar settings root now = some sweep) :
    Spares calendar settings now sweep ↔
      ∀ r cap, root = some r → r.lock = .free → settings.maxBytes = some cap →
        Measured calendar settings now cap (sortedDays r.dirs) := by
  rcases sweepAt_cases h with ⟨days, hbails⟩ | ⟨r, rfl, hlock, hbefore, haged, hafter, hbailed, hpass⟩
  · refine iff_of_true hbails.spares fun r cap hroot hlock _ => ?_
    rcases hbails.1 with hnone | ⟨other, hother, hheld⟩
    · rw [hroot] at hnone
      cases hnone
    · obtain rfl := Option.some.inj (hroot.symm.trans hother)
      exact absurd hlock hheld
  · cases hcap : settings.maxBytes with
    | none =>
      rw [hcap] at hpass
      exact iff_of_true (spares_uncapped hcap hbefore haged hpass hafter) nofun
    | some cap =>
      rw [hcap] at hpass
      have hcapped : Capped calendar settings now cap (sortedDays r.dirs) sweep :=
        ⟨hcap, hbefore, haged, hpass.1, hafter, hbailed, hpass.2⟩
      constructor
      · intro hspares other otherCap hroot _ hother
        obtain rfl := Option.some.inj hroot
        obtain rfl := Option.some.inj hother
        exact hspares.measured hcapped
      · exact fun hmeasured => (hmeasured r cap rfl hlock rfl).spares hcapped

/-- Two days as the calendar reads them, on the second. -/
def sampleCalendar : Calendar where
  dayFromName name := if name = "2026-09-29" then some 20725 else if name = "2026-09-30" then some 20726 else none
  dayDir _ := "2026-09-30"
  earliest := -96465292

/-- A file of ten bytes, last written long ago. -/
def sampleEntry : Entry := ⟨"a.jsonl", true, 10, some 0, true⟩

/-- A directory that holds it. -/
def sampleDay (name : String) : Day := ⟨name, some [sampleEntry], true⟩

/-- Such a directory is swept and removed. -/
theorem sweepAt_sampleDay {name : String} (hname : name ≠ "2026-09-30") :
    sweepAt sampleCalendar ⟨none, some 5⟩ (some ⟨.free, [sampleDay name]⟩) 1790726400000000000 =
      some ⟨⟨1, 10, 1, false, true⟩, [sampleDay name], [sampleDay name], [⟨name, some [], true⟩], []⟩ := by
  have hpass (out : Outcome) : sizePass "2026-09-30" 5 1790726400000000000 [sampleDay name] 10 out =
      ([⟨name, some [], true⟩], 0, out.counting [sampleEntry]) := by
    have hother : (sampleDay name).name ≠ "2026-09-30" := hname
    rw [sizePass, if_neg (by decide), if_neg hother, removeFiles_eq]
    have hfreed : (out.counting [sampleEntry]).bytesFreed - out.bytesFreed = 10 := Nat.add_sub_cancel_left _ _
    have hremovals : removals 1790726400000000000 (sampleDay name) = [sampleEntry] := rfl
    dsimp only
    rw [hremovals, hfreed]
    rfl
  have hsorted : sortedDays [sampleDay name] = [sampleDay name] := List.mergeSort_singleton _
  rw [sweepAt]
  dsimp only
  rw [hsorted]
  exact congrArg (fun sized : List Day × ℕ × Outcome =>
    some (Sweep.mk (removeEmpty sized.1 { sized.2.2 with capReached := decide (sized.2.1 ≤ 5) }).2 [sampleDay name]
      [sampleDay name] sized.1 (removeEmpty sized.1 { sized.2.2 with capReached := decide (sized.2.1 ≤ 5) }).1))
    (hpass Outcome.start)

/-- Yesterday's file goes to meet the size cap, as it may. -/
theorem sweepAt_spares_sample :
    Spares sampleCalendar ⟨none, some 5⟩ 1790726400000000000
      ⟨⟨1, 10, 1, false, true⟩, [sampleDay "2026-09-29"], [sampleDay "2026-09-29"],
        [⟨"2026-09-29", some [], true⟩], []⟩ := by
  refine (sweepAt_spares _ _ _ _ _ (sweepAt_sampleDay (by decide))).mpr fun r cap hroot _ hcap => ?_
  obtain rfl := Option.some.inj hroot
  obtain rfl := Option.some.inj hcap
  have hsorted : sortedDays [sampleDay "2026-09-29"] = [sampleDay "2026-09-29"] := List.mergeSort_singleton _
  rw [hsorted]
  refine ⟨fun passed day rest hdays _ _ _ => ?_, fun hover => absurd hover (by decide)⟩
  cases passed with
  | cons first passed =>
    have hlength := congrArg List.length hdays
    simp at hlength
  | nil =>
    obtain ⟨rfl, rfl⟩ := List.cons.inj hdays
    refine ⟨by decide, ?_, by decide, nofun⟩
    rintro (hname | ⟨date, hdate, htoday⟩)
    · revert hname
      decide
    · obtain rfl := Option.some.inj hdate
      revert htoday
      decide

/-- A file of a directory that names no day goes as well. -/
theorem sweepAt_takes_foreign :
    sweepAt sampleCalendar ⟨none, some 5⟩ (some ⟨.free, [sampleDay "not-a-date"]⟩) 1790726400000000000 =
      some ⟨⟨1, 10, 1, false, true⟩, [sampleDay "not-a-date"], [sampleDay "not-a-date"],
        [⟨"not-a-date", some [], true⟩], []⟩ ∧
    ¬ Spares sampleCalendar ⟨none, some 5⟩ 1790726400000000000
      ⟨⟨1, 10, 1, false, true⟩, [sampleDay "not-a-date"], [sampleDay "not-a-date"],
        [⟨"not-a-date", some [], true⟩], []⟩ := by
  refine ⟨sweepAt_sampleDay (by decide), fun hspares => ?_⟩
  have hday := (hspares.files [] _ _ [] ⟨[], [], rfl, rfl, rfl⟩ sampleEntry List.mem_cons_self nofun).2.2
  revert hday
  decide

end Verdict

end Devkit.Log
