import Devkit.Library.EditScript
import Devkit.Ports.PlanText
import Mathlib.Data.List.Perm.Basic

/-!
# The difference of two plans

The lines of two plans are compared by an edit script. A dropped and an added line with one text are paired
and read as one line whose hidden value changed. No difference is shown exactly where the lines are the same.
-/

namespace Devkit.Ports

open Devkit.Library

/-- A line of a script, and whether it is paired with one of the other side. -/
abbrev Marked := Edit PlanLine × Bool

/-- A dropped line not paired yet, with the text. -/
def pairsWith (text : List Char) : Marked → Bool
  | (.drop line, false) => line.text == text
  | _ => false

/-- Mark a line as paired. -/
def Marked.pair (marked : Marked) : Marked := (marked.1, true)

/-- Pair the line at a place, where it is added, with the first dropped line of its text. -/
def pairAt (marked : List Marked) (k : ℕ) : List Marked :=
  match marked[k]? with
  | some (.add line, _) =>
    match marked.findIdx? (pairsWith line.text) with
    | some d => (marked.modify d Marked.pair).modify k Marked.pair
    | none => marked
  | _ => marked

/-- The lines of a run of changes, with pairs marked. -/
def pairRun (run : List (Edit PlanLine)) : List Marked :=
  (List.range run.length).foldl pairAt (run.map fun op => (op, false))

/-- The lines of a script, pairs marked in each run of changes; the run so far is kept. -/
def pairRuns (run : List (Edit PlanLine)) : List (Edit PlanLine) → List Marked
  | [] => pairRun run
  | .keep line :: rest => pairRun run ++ (.keep line, false) :: pairRuns [] rest
  | op :: rest => pairRuns (run ++ [op]) rest

/-- How a line of a script is shown. -/
def Marked.shown : Marked → Option (List Char)
  | (.keep line, _) => if line.text.head? = some ' ' then none else some ("  ".toList ++ line.text)
  | (.drop _, true) => none
  | (.add line, true) => some ("~ ".toList ++ line.text ++ " (rendered value changed)".toList)
  | (.drop line, false) => some ("- ".toList ++ line.text)
  | (.add line, false) => some ("+ ".toList ++ line.text)

/-- The readable difference of two plans. -/
def planDiff (base head : ExecutionPlan) : List (List Char) :=
  if base.lines = head.lines then []
  else (pairRuns [] (script base.lines head.lines)).filterMap Marked.shown

/-- A dropped line that is paired. -/
def Marked.hiddenDrop : Marked → Option PlanLine
  | (.drop line, true) => some line
  | _ => none

/-- An added line that is paired. -/
def Marked.hiddenAdd : Marked → Option PlanLine
  | (.add line, true) => some line
  | _ => none

/-- The lines of a script with pairs marked: each pair is a dropped and an added line of the script with one text. -/
structure Paired (ops : List (Edit PlanLine)) (marked : List Marked) (pairs : List (PlanLine × PlanLine)) : Prop where
  lines : marked.map Prod.fst = ops
  drops : (marked.filterMap Marked.hiddenDrop).Perm (pairs.map Prod.fst)
  adds : (marked.filterMap Marked.hiddenAdd).Perm (pairs.map Prod.snd)
  texts : ∀ pair ∈ pairs, pair.1.text = pair.2.text
  found : ∀ pair ∈ pairs, .drop pair.1 ∈ ops ∧ .add pair.2 ∈ ops

section Pairing

/-- A list around a place that is modified. -/
theorem exists_modify {A : Type*} {list : List A} {i : ℕ} {a : A} (h : list[i]? = some a) (change : A → A) :
    ∃ before after, list = before ++ a :: after ∧ list.modify i change = before ++ change a :: after := by
  induction list generalizing i with
  | nil => cases h
  | cons b list ih =>
    cases i with
    | zero =>
      obtain rfl := Option.some.inj h
      exact ⟨[], list, rfl, rfl⟩
    | succ i =>
      obtain ⟨before, after, hlist, hmodify⟩ := ih h
      exact ⟨b :: before, after, by rw [hlist]; rfl, by rw [List.modify_succ_cons, hmodify]; rfl⟩

/-- Marking a line pairs it and no other. -/
theorem filterMap_modify {marked : List Marked} {i : ℕ} {line : Marked} (h : marked[i]? = some line)
    (pick : Marked → Option PlanLine) :
    (pick line = pick line.pair → (marked.modify i Marked.pair).filterMap pick = marked.filterMap pick) ∧
    ∀ found, pick line = none → pick line.pair = some found →
      ((marked.modify i Marked.pair).filterMap pick).Perm (found :: marked.filterMap pick) := by
  obtain ⟨before, after, hlist, hmodify⟩ := exists_modify h Marked.pair
  rw [hmodify, hlist, List.filterMap_append, List.filterMap_append]
  refine ⟨fun heq => ?_, fun found hnone hfound => ?_⟩
  · rw [List.filterMap_cons, List.filterMap_cons, heq]
  · rw [List.filterMap_cons_some hfound, List.filterMap_cons_none hnone]
    exact List.perm_middle

/-- One step of pairing in a run. -/
theorem Paired.pairAt {run : List (Edit PlanLine)} {marked : List Marked} {pairs : List (PlanLine × PlanLine)}
    (h : Paired run marked pairs) {k : ℕ}
    (hfresh : ∀ i ≥ k, ∀ line flag, marked[i]? = some (.add line, flag) → flag = false) :
    (∃ more, Paired run (Ports.pairAt marked k) more) ∧
      ∀ i ≥ k + 1, ∀ line flag, (Ports.pairAt marked k)[i]? = some (.add line, flag) → flag = false := by
  have hsame : (∃ more, Paired run marked more) ∧
      ∀ i ≥ k + 1, ∀ line flag, marked[i]? = some (.add line, flag) → flag = false :=
    ⟨⟨pairs, h⟩, fun i hi => hfresh i (by omega)⟩
  rw [Ports.pairAt]
  split
  · rename_i line flag hline
    obtain rfl := hfresh k (Nat.le_refl k) line flag hline
    split
    · rename_i d hd
      -- The dropped line found, not paired before.
      obtain ⟨hlt, hpairs, _⟩ := List.findIdx?_eq_some_iff_getElem.mp hd
      obtain ⟨dropped, hdropped, htext⟩ : ∃ dropped, marked[d]? = some (.drop dropped, false) ∧
        dropped.text = line.text := by
        rw [List.getElem?_eq_getElem hlt]
        match hfound : marked[d], hpairs with
        | (.drop dropped, false), hpairs => exact ⟨dropped, rfl, beq_iff_eq.mp hpairs⟩
      have hne : d ≠ k := by
        rintro rfl
        rw [hline] at hdropped
        cases hdropped
      have hline' : (marked.modify d Marked.pair)[k]? = some (.add line, false) := by
        rw [List.getElem?_modify_ne _ _ hne, hline]
      obtain ⟨_, hdrops⟩ := filterMap_modify hdropped Marked.hiddenDrop
      obtain ⟨haddsKept, _⟩ := filterMap_modify hdropped Marked.hiddenAdd
      obtain ⟨hdropsKept, _⟩ := filterMap_modify hline' Marked.hiddenDrop
      obtain ⟨_, hadds⟩ := filterMap_modify hline' Marked.hiddenAdd
      have hmemDrop : .drop dropped ∈ run := by
        rw [← h.lines]
        exact List.mem_map.mpr ⟨_, List.mem_of_getElem? hdropped, rfl⟩
      have hmemAdd : .add line ∈ run := by
        rw [← h.lines]
        exact List.mem_map.mpr ⟨_, List.mem_of_getElem? hline, rfl⟩
      refine ⟨⟨(dropped, line) :: pairs, ?_, ?_, ?_, ?_, ?_⟩, fun i hi other flag hother => ?_⟩
      · have hfst : ∀ (list : List Marked) i, (list.modify i Marked.pair).map Prod.fst = list.map Prod.fst := by
          intro list i
          cases hget : list[i]? with
          | none => rw [List.modify_eq_self (List.getElem?_eq_none_iff.mp hget)]
          | some a =>
            obtain ⟨before, after, hlist, hmodify⟩ := exists_modify hget Marked.pair
            rw [hmodify, hlist, List.map_append, List.map_append]
            rfl
        rw [hfst, hfst, h.lines]
      · rw [hdropsKept rfl]
        exact (hdrops dropped rfl rfl).trans (h.drops.cons dropped)
      · refine (hadds line rfl rfl).trans ?_
        rw [haddsKept rfl]
        exact h.adds.cons line
      · exact List.forall_mem_cons.mpr ⟨htext, h.texts⟩
      · exact List.forall_mem_cons.mpr ⟨⟨hmemDrop, hmemAdd⟩, h.found⟩
      · rw [List.getElem?_modify_ne _ _ (by omega)] at hother
        by_cases hid : d = i
        · rw [← hid, List.getElem?_modify_eq, hdropped] at hother
          cases hother
        · rw [List.getElem?_modify_ne _ _ hid] at hother
          exact hfresh i (by omega) other flag hother
    · exact hsame
  · exact hsame

/-- A run of changes with its pairs. -/
theorem exists_paired_run (run : List (Edit PlanLine)) : ∃ pairs, Paired run (pairRun run) pairs := by
  have hunpaired : ∀ pick : Marked → Option PlanLine, (∀ op, pick (op, false) = none) →
      (run.map fun op => ((op, false) : Marked)).filterMap pick = [] := by
    intro pick hnone
    rw [List.filterMap_map, List.filterMap_eq_nil_iff]
    exact fun op _ => hnone op
  have hstart : Paired run (run.map fun op => (op, false)) [] := by
    refine ⟨by rw [List.map_map]; exact List.map_id run, ?_, ?_, nofun, nofun⟩
    · rw [hunpaired Marked.hiddenDrop fun op => by cases op <;> rfl]
      exact .nil
    · rw [hunpaired Marked.hiddenAdd fun op => by cases op <;> rfl]
      exact .nil
  have hrun : ∀ n, (∃ pairs, Paired run ((List.range n).foldl Ports.pairAt (run.map fun op => (op, false))) pairs) ∧
      ∀ i ≥ n, ∀ line flag, ((List.range n).foldl Ports.pairAt (run.map fun op => (op, false)))[i]? =
        some (.add line, flag) → flag = false := by
    intro n
    induction n with
    | zero =>
      refine ⟨⟨[], hstart⟩, fun i _ line flag hline => ?_⟩
      rw [List.range_zero, List.foldl_nil, List.getElem?_map] at hline
      obtain ⟨op, _, heq⟩ := Option.map_eq_some_iff.mp hline
      exact (Prod.mk.inj heq).2.symm
    | succ n ih =>
      obtain ⟨⟨pairs, hpaired⟩, hfresh⟩ := ih
      rw [List.range_succ, List.foldl_concat]
      exact hpaired.pairAt hfresh
  exact (hrun run.length).1

/-- Lines with pairs after lines with pairs. -/
theorem Paired.append {first second : List (Edit PlanLine)} {marked other : List Marked}
    {pairs more : List (PlanLine × PlanLine)} (h : Paired first marked pairs) (hother : Paired second other more) :
    Paired (first ++ second) (marked ++ other) (pairs ++ more) := by
  refine ⟨by rw [List.map_append, h.lines, hother.lines], ?_, ?_, ?_, ?_⟩
  · rw [List.filterMap_append, List.map_append]
    exact h.drops.append hother.drops
  · rw [List.filterMap_append, List.map_append]
    exact h.adds.append hother.adds
  · exact List.forall_mem_append.mpr ⟨h.texts, hother.texts⟩
  · refine List.forall_mem_append.mpr ⟨fun pair hpair => ?_, fun pair hpair => ?_⟩
    · exact ⟨List.mem_append_left _ (h.found pair hpair).1, List.mem_append_left _ (h.found pair hpair).2⟩
    · exact ⟨List.mem_append_right _ (hother.found pair hpair).1, List.mem_append_right _ (hother.found pair hpair).2⟩

/-- Lines with one text and one value are one. -/
theorem line_eq {line other : PlanLine} (htext : line.text = other.text) (hsecret : line.secret = other.secret) :
    line = other := by
  cases line
  cases other
  exact (PlanLine.mk.injEq _ _ _ _).mpr ⟨htext, hsecret⟩

/-- A script with its pairs, where no line is both dropped and added in a run of changes: a pair's values differ. -/
theorem exists_paired (whole before run rest : List (Edit PlanLine)) (hwhole : whole = before ++ run ++ rest)
    (hrun : ∀ line, .keep line ∉ run)
    (hdiffer : ∀ first middle last, whole = first ++ middle ++ last → (∀ line, .keep line ∉ middle) →
      ∀ line, .drop line ∈ middle → .add line ∈ middle → False) :
    ∃ pairs, Paired (run ++ rest) (pairRuns run rest) pairs ∧ ∀ pair ∈ pairs, pair.1.secret ≠ pair.2.secret := by
  have hclosed : ∀ {before run rest : List (Edit PlanLine)}, whole = before ++ run ++ rest →
    (∀ line, .keep line ∉ run) →
      ∃ pairs, Paired run (pairRun run) pairs ∧ ∀ pair ∈ pairs, pair.1.secret ≠ pair.2.secret := by
    intro before run rest hwhole hrun
    obtain ⟨pairs, hpaired⟩ := exists_paired_run run
    refine ⟨pairs, hpaired, fun pair hpair hsecret => ?_⟩
    obtain ⟨hdrop, hadd⟩ := hpaired.found pair hpair
    have hsame := line_eq (hpaired.texts pair hpair) hsecret
    exact hdiffer before run rest hwhole hrun pair.1 hdrop (hsame ▸ hadd)
  induction rest generalizing before run with
  | nil =>
    rw [List.append_nil]
    exact hclosed hwhole hrun
  | cons op rest ih =>
    have hnext : ∀ op, whole = before ++ run ++ op :: rest → (∀ line, op ≠ .keep line) →
        ∃ pairs, Paired (run ++ op :: rest) (pairRuns (run ++ [op]) rest) pairs ∧
          ∀ pair ∈ pairs, pair.1.secret ≠ pair.2.secret := by
      intro op hwhole hop
      have hmore := ih before (run ++ [op]) (by simp [hwhole]) fun line hline => by
        cases List.mem_append.mp hline with
        | inl hmem => exact hrun line hmem
        | inr hmem => exact hop line (List.mem_singleton.mp hmem).symm
      rwa [List.append_assoc] at hmore
    cases op with
    | drop line => exact hnext _ hwhole nofun
    | add line => exact hnext _ hwhole nofun
    | keep line =>
      obtain ⟨pairs, hpaired, hsecrets⟩ := hclosed hwhole hrun
      obtain ⟨more, hmore, hsecretsMore⟩ := ih (before ++ run ++ [.keep line]) [] (by simp [hwhole]) nofun
      have hkeep : Paired [.keep line] [(.keep line, false)] [] :=
        ⟨rfl, .nil, .nil, nofun, nofun⟩
      exact ⟨pairs ++ ([] ++ more), hpaired.append (hkeep.append hmore),
        List.forall_mem_append.mpr ⟨hsecrets, hsecretsMore⟩⟩

end Pairing

section Difference

/-- Lines shown tell one list of lines from another: dropping what is dropped and adding what is added gives the
other list, and a pair shown as one line is a dropped and an added line that differ only in the hidden value. -/
def Tells (old new : List PlanLine) (shown : List (List Char)) : Prop :=
  ∃ marked : List Marked, ∃ pairs : List (PlanLine × PlanLine),
    old = marked.filterMap (fun line => line.1.old) ∧ new = marked.filterMap (fun line => line.1.new) ∧
    shown = marked.filterMap Marked.shown ∧
    (marked.filterMap Marked.hiddenDrop).Perm (pairs.map Prod.fst) ∧
    (marked.filterMap Marked.hiddenAdd).Perm (pairs.map Prod.snd) ∧
    ∀ pair ∈ pairs, pair.1.text = pair.2.text ∧ pair.1.secret ≠ pair.2.secret

/-- The script of two plans' lines with its pairs. -/
theorem tells_script (old new : List PlanLine) :
    Tells old new ((pairRuns [] (script old new)).filterMap Marked.shown) := by
  obtain ⟨pairs, hpaired, hsecrets⟩ := exists_paired (script old new) [] [] _ rfl nofun
    fun first middle last hsplit hkeep line hdrop hadd => script_run hsplit hkeep hdrop hadd
  obtain ⟨hold, hnew⟩ := script_sides old new
  have hlines : (pairRuns [] (script old new)).map Prod.fst = script old new := hpaired.lines
  refine ⟨_, pairs, ?_, ?_, rfl, hpaired.drops, hpaired.adds,
    fun pair hpair => ⟨hpaired.texts pair hpair, hsecrets pair hpair⟩⟩
  · refine hold.symm.trans ?_
    conv_lhs => rw [← hlines, List.filterMap_map]
    rfl
  · refine hnew.symm.trans ?_
    conv_lhs => rw [← hlines, List.filterMap_map]
    rfl

/-- Lists told apart by no line are the same. -/
theorem eq_of_tells_nil {old new : List PlanLine} (h : Tells old new []) : old = new := by
  obtain ⟨marked, pairs, rfl, rfl, hshown, hdrops, hadds, _⟩ := h
  have hnone := List.filterMap_eq_nil_iff.mp hshown.symm
  have hnoAdds : marked.filterMap Marked.hiddenAdd = [] := by
    refine List.filterMap_eq_nil_iff.mpr fun line hline => ?_
    match line, hnone line hline with
    | (.keep _, _), _ => rfl
    | (.drop _, _), _ => rfl
    | (.add _, false), _ => rfl
  have hpairs : pairs = [] := by
    rw [hnoAdds] at hadds
    exact List.map_eq_nil_iff.mp hadds.symm.eq_nil
  rw [hpairs, List.map_nil] at hdrops
  have hnoDrops := List.filterMap_eq_nil_iff.mp hdrops.eq_nil
  refine List.filterMap_congr fun line hline => ?_
  match line, hnone line hline, hnoDrops line hline with
  | (.keep _, _), _, _ => rfl

/-- A difference is shown where the lines differ. -/
theorem planDiff_eq_nil {base head : ExecutionPlan} : planDiff base head = [] ↔ base.lines = head.lines := by
  rw [planDiff]
  split
  · rename_i hsame
    exact iff_of_true rfl hsame
  · rename_i hdiffer
    refine iff_of_false (fun hnone => hdiffer ?_) hdiffer
    have htells := tells_script base.lines head.lines
    rw [hnone] at htells
    exact eq_of_tells_nil htells

/-- The difference of two plans is empty exactly where they are the same, and otherwise tells the lines of one from the
other's, exactly where plans alike are the same: where no list of servers required live is another list once joined,
and no variable's name runs into another's template. -/
theorem planDiff_tells (base head : ExecutionPlan) :
    ((planDiff base head = [] ↔ base = head) ∧
      (planDiff base head ≠ [] → Tells base.lines head.lines (planDiff base head))) ↔
    (Alike base head → base = head) := by
  have htells : planDiff base head ≠ [] → Tells base.lines head.lines (planDiff base head) := by
    intro hsome
    rw [planDiff] at hsome ⊢
    split
    · rename_i hsame
      rw [if_pos hsame] at hsome
      exact absurd rfl hsome
    · exact tells_script base.lines head.lines
  rw [and_iff_left htells, planDiff_eq_nil, lines_eq_iff]
  constructor
  · exact fun h => h.mp
  · intro h
    refine ⟨h, ?_⟩
    rintro rfl
    exact lines_eq_iff.mp rfl

/-- The empty environment. -/
def noVariables : Environment := ⟨[], List.Pairwise.nil⟩

/-- A plan of one command that requires servers live. -/
def requiringLive (servers : List String) : ExecutionPlan :=
  ⟨true, true, [.run "check" none ["true"] "." noVariables servers]⟩

/-- A plan that requires one server of a name with a comma and one that requires two servers show no difference. -/
theorem planDiff_blind : planDiff (requiringLive ["a, b"]) (requiringLive ["a", "b"]) = [] ∧
    requiringLive ["a, b"] ≠ requiringLive ["a", "b"] ∧
    ¬ ∀ base head, planDiff base head = [] ↔ base = head := by
  have hlines : planDiff (requiringLive ["a, b"]) (requiringLive ["a", "b"]) = [] := by decide +kernel
  have hdiffer : requiringLive ["a, b"] ≠ requiringLive ["a", "b"] := by decide +kernel
  exact ⟨hlines, hdiffer, fun h => hdiffer ((h _ _).mp hlines)⟩

end Difference

end Devkit.Ports
