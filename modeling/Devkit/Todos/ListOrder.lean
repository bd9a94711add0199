import Mathlib.Algebra.Group.Nat.Defs
import Mathlib.Data.List.Sort
import Devkit.Todos.ListCalls

/-!
# The order of a mirrored list

The todos of a list are shown by their stored orders. A call writes orders only for steps that are
new or whose remembered place changed, and a prune shortens the remembered list without touching the
orders. So a list is shown as it was sent while no step that stays at its remembered place is stored
at or above a later one.
-/

namespace Devkit.Todos.Native

open Devkit.Library
open Std

/-- Todos without an order follow the ordered ones, oldest first; the id settles ties. -/
def sortKey : Todo → Todo → Ordering :=
  compareLex (compareOn fun todo => todo.order.isNone) (compareLex (compareOn fun todo => todo.order.getD 0)
    (compareLex (compareOn Todo.entry) (compareOn Todo.id)))

instance transCmp_sortKey : TransCmp sortKey := inferInstanceAs (TransCmp (compareLex _ _))

/-- The todo is shown no later than the other. -/
def ShownBefore (todo other : Todo) : Prop := (sortKey todo other).isLE = true

instance decidableShownBefore : DecidableRel ShownBefore :=
  fun todo other => inferInstanceAs (Decidable ((sortKey todo other).isLE = true))

instance total_shownBefore : Std.Total ShownBefore := ⟨fun todo other => by
  cases h : sortKey todo other with
  | lt => exact Or.inl (by rw [ShownBefore, h]; rfl)
  | eq => exact Or.inl (by rw [ShownBefore, h]; rfl)
  | gt =>
    have hswap : sortKey other todo = .lt := OrientedCmp.lt_of_gt h
    exact Or.inr (by rw [ShownBefore, hswap]; rfl)⟩

instance isTrans_shownBefore : IsTrans Todo ShownBefore := ⟨fun _ _ _ hfirst hsecond =>
  TransCmp.isLE_trans hfirst hsecond⟩

/-- A todo of a lower order is shown strictly before. -/
theorem shownBefore_of_lt {todo other : Todo} {low high : Int64} (htodo : todo.order = some low)
    (hother : other.order = some high) (hlt : low < high) : ShownBefore todo other ∧ ¬ ShownBefore other todo := by
  have hcompare : sortKey todo other = .lt := by
    have hlow : compare low high = .lt := Std.compare_eq_lt.mpr hlt
    simp only [sortKey, compareLex, compareOn, htodo, hother, Option.isNone_some, Option.getD_some, hlow]
    rfl
  refine ⟨by rw [ShownBefore, hcompare]; rfl, fun hback => ?_⟩
  have hswap : sortKey other todo = .gt := OrientedCmp.gt_of_lt hcompare
  rw [ShownBefore, hswap] at hback
  contradiction

/-- Todos each shown strictly before the next are what any listing of them sorts to. -/
theorem insertionSort_eq_of_perm {todos sorted : List Todo} (hperm : todos.Perm sorted)
    (hstrict : sorted.Pairwise fun todo other => ShownBefore todo other ∧ ¬ ShownBefore other todo) :
    todos.insertionSort ShownBefore = sorted := by
  have hall := (List.perm_insertionSort ShownBefore todos).trans hperm
  refine hall.eq_of_pairwise (fun todo other htodo hother hbefore hafter => ?_)
    (List.pairwise_insertionSort ShownBefore todos) (hstrict.imp And.left)
  obtain ⟨i, hi, rfl⟩ := List.mem_iff_getElem.mp (hall.mem_iff.mp htodo)
  obtain ⟨j, hj, rfl⟩ := List.mem_iff_getElem.mp hother
  rcases Nat.lt_trichotomy i j with hlt | rfl | hlt
  · exact absurd hafter (List.pairwise_iff_getElem.mp hstrict i j hi hj hlt).2
  · rfl
  · exact absurd hbefore (List.pairwise_iff_getElem.mp hstrict j i hj hi hlt).2

/-- The order of an index is its multiple of the gap, while that fits a machine word. -/
theorem toInt_placeOrder {j : ℕ} (h : j < 2 ^ 53) : (placeOrder j).toInt = j * 1024 := by
  have hgap : orderGap.toInt = 1024 := by decide
  rw [placeOrder, Int64.toInt_mul, Int64.toInt_ofNat_of_lt (by omega), hgap]
  exact Int.bmod_eq_of_le (by omega) (by omega)

namespace Mirroring

variable {harness : Harness} {holder : Holder}

/-- The holder's mirrored todos that are open. -/
def openMirrored (s : Mirroring) (harness : Harness) (holder : Holder) : List Todo :=
  (rows s.doc.todos).filter fun todo => todo.status.kind.isOpen &&
    (s.native.snapshot harness holder).any fun step => step.todo == todo.id

/-- The holder's open mirrored todos, as they are shown, spell the open steps of a list. -/
def Spells (harness : Harness) (holder : Holder) (s : Mirroring) (list : List Item) : Prop :=
  ((s.openMirrored harness holder).insertionSort ShownBefore).map Todo.description =
    ((stepsOf list).filter fun step => step.status.isOpen).map Step.text

/-- No open step that continues the one remembered at its own place is stored at or above the order of
a later open step, and every place has an order of its own. -/
structure KeepsPlaces (harness : Harness) (holder : Holder) (s : Mirroring) (next : List Step) : Prop where
  fits : next.length ≤ 2 ^ 53
  below : ∀ (i j : ℕ) (step later : Step) (order : Int64), i < j → next[i]? = some step → next[j]? = some later →
    step.status.isOpen = true → later.status.isOpen = true →
    (pair (s.previous harness holder) next)[i]? = some (some i) →
    s.storedOrder (s.previous harness holder) i = some order → order < s.orderAfter harness holder next j

/-- A step stands no earlier than its place. -/
theorem Sound.le_orderAfter {s : Mirroring} {next : List Step} (hsound : Sound harness holder s) {j : ℕ}
    (hj : j < 2 ^ 53) : (j : ℤ) * 1024 ≤ (s.orderAfter harness holder next j).toInt := by
  rw [orderAfter]
  split
  · rename_i hstays
    obtain ⟨prev, step, hprev, -, -⟩ := pair_eq_some hstays
    obtain ⟨key, seen, hbacked⟩ := hsound.backed hprev
    obtain ⟨order, horder, hle⟩ := hbacked.order
    rw [hbacked.storedOrder hprev horder]
    exact hle
  · rw [toInt_placeOrder hj]

/-- Where the places are kept, an open step ends up stored below every later open one. -/
theorem KeepsPlaces.lt {s : Mirroring} {next : List Step} (hkeeps : KeepsPlaces harness holder s next)
    (hsound : Sound harness holder s) {i j : ℕ} {step later : Step} (hij : i < j) (hi : next[i]? = some step)
    (hj : next[j]? = some later) (hstep : step.status.isOpen = true) (hlater : later.status.isOpen = true) :
    s.orderAfter harness holder next i < s.orderAfter harness holder next j := by
  have hlt : j < next.length := (List.getElem?_eq_some_iff.mp hj).1
  have hfits := hkeeps.fits
  by_cases hstays : (pair (s.previous harness holder) next)[i]? = some (some i)
  · obtain ⟨prev, -, hprev, -, -⟩ := pair_eq_some hstays
    obtain ⟨key, seen, hbacked⟩ := hsound.backed hprev
    obtain ⟨order, horder, -⟩ := hbacked.order
    have hstored := hbacked.storedOrder hprev horder
    have hbelow := hkeeps.below i j step later order hij hi hj hstep hlater hstays hstored
    rw [orderAfter, if_pos hstays, hstored]
    exact hbelow
  · have hmoved : s.orderAfter harness holder next i = placeOrder i := if_neg hstays
    have hhigh : (j : ℤ) * 1024 ≤ (s.orderAfter harness holder next j).toInt := hsound.le_orderAfter (by omega)
    rw [hmoved, Int64.lt_iff_toInt_lt, toInt_placeOrder (by omega)]
    omega

section Placed

variable {s s' : Mirroring} {keys : ℕ → ℕ} {next : List Step}

/-- Every remembered step is one of the list, with the todo it was placed in. -/
theorem Placed.getElem?_snapshot (hplaced : Placed s harness holder next keys s') {place : ℕ} {step : MirroredStep} :
    (s'.native.snapshot harness holder)[place]? = some step ↔
      ∃ sent, next[place]? = some sent ∧ ⟨sent.text, idOf (keys place), some sent.status⟩ = step := by
  rw [hplaced.snapshot, List.getElem?_map, Option.map_eq_some_iff]
  constructor
  · rintro ⟨⟨sent, j⟩, hrow, rfl⟩
    obtain ⟨hsent, hj⟩ := List.getElem?_zip_eq_some.mp hrow
    obtain ⟨hlt, rfl⟩ := List.getElem?_eq_some_iff.mp hj
    rw [List.getElem_range]
    exact ⟨sent, hsent, rfl⟩
  · rintro ⟨sent, hsent, rfl⟩
    have hlt := (List.getElem?_eq_some_iff.mp hsent).1
    exact ⟨(sent, place), List.getElem?_zip_eq_some.mpr ⟨hsent, List.getElem?_range hlt⟩, rfl⟩

/-- A placed list is remembered soundly. -/
theorem Placed.sound (hplaced : Placed s harness holder next keys s') (hsound : Sound harness holder s)
    (hlines : next.length ≤ 2 ^ 53) : Sound harness holder s' := by
  refine ⟨hplaced.numbered, fun place step hstep => ?_, ?_⟩
  · obtain ⟨sent, hsent, rfl⟩ := hplaced.getElem?_snapshot.mp hstep
    have hlt : place < next.length := (List.getElem?_eq_some_iff.mp hsent).1
    refine ⟨keys place, rfl, hplaced.counted place hlt, fun seen hseen => ?_⟩
    obtain rfl := Option.some.inj ((hplaced.face place sent hsent).symm.trans hseen)
    exact ⟨rfl, rfl, _, rfl, hsound.le_orderAfter (by omega)⟩
  · have htodos : (s'.native.snapshot harness holder).map MirroredStep.todo =
        (List.range next.length).map fun j => idOf (keys j) := by
      rw [hplaced.snapshot, List.map_map]
      refine Eq.trans (b := ((next.zip (List.range next.length)).map Prod.snd).map fun j => idOf (keys j)) ?_ ?_
      · rw [List.map_map]
        rfl
      · rw [List.map_snd_zip (by rw [List.length_range])]
    rw [htodos]
    refine List.nodup_range.map_on fun j hj k hk heq => ?_
    exact hplaced.inj j (List.mem_range.mp hj) k (List.mem_range.mp hk) (idOf_inj.mp heq)

/-- The open mirrored todos of a placed list are those its open steps were placed in. -/
theorem Placed.mem_openMirrored (hplaced : Placed s harness holder next keys s')
    {todoAt : Fin next.length → Todo} (htodo : ∀ j : Fin next.length, s'.doc.todos[keys j]? = some (todoAt j))
    (hkind : ∀ j, (todoAt j).status.kind = (next.get j).status) {todo : Todo} :
    todo ∈ s'.openMirrored harness holder ↔
      todo ∈ ((List.finRange next.length).filter fun j => (next.get j).status.isOpen).map todoAt := by
  have hid : ∀ j : Fin next.length, (todoAt j).id = idOf (keys j) := fun j => hplaced.numbered.keyed (htodo j)
  simp only [openMirrored, List.mem_filter, Bool.and_eq_true, List.any_eq_true, beq_iff_eq, List.mem_map,
    List.mem_finRange, true_and]
  constructor
  · rintro ⟨hrow, hopen, step, hstep, hsame⟩
    obtain ⟨key, hkey⟩ := mem_rows.mp hrow
    obtain ⟨place, hplace⟩ := List.mem_iff_getElem?.mp hstep
    obtain ⟨sent, hsent, rfl⟩ := hplaced.getElem?_snapshot.mp hplace
    have hlt : place < next.length := (List.getElem?_eq_some_iff.mp hsent).1
    have heq : keys place = key := idOf_inj.mp (hsame.trans (hplaced.numbered.keyed hkey))
    have htodoAt : todoAt ⟨place, hlt⟩ = todo := Option.some.inj ((htodo ⟨place, hlt⟩).symm.trans (heq ▸ hkey))
    exact ⟨⟨place, hlt⟩, by rw [← hkind, htodoAt, hopen], htodoAt⟩
  · rintro ⟨j, hopen, rfl⟩
    have hstep := hplaced.getElem?_snapshot.mpr ⟨next.get j, List.getElem?_eq_getElem j.2, rfl⟩
    exact ⟨mem_rows.mpr ⟨keys j, htodo j⟩, by rw [hkind, hopen], _, List.mem_of_getElem? hstep, (hid j).symm⟩

/-- A placed list is shown as it was sent, where its open steps are stored in order. -/
theorem Placed.spells {list : List Item} (hplaced : Placed s harness holder (stepsOf list) keys s')
    (hlt : ∀ (i j : ℕ) (step later : Step), i < j → (stepsOf list)[i]? = some step →
      (stepsOf list)[j]? = some later → step.status.isOpen = true → later.status.isOpen = true →
        s.orderAfter harness holder (stepsOf list) i < s.orderAfter harness holder (stepsOf list) j) :
    Spells harness holder s' list := by
  have hget : ∀ j : Fin (stepsOf list).length, (stepsOf list)[j.1]? = some ((stepsOf list).get j) :=
    fun j => List.getElem?_eq_getElem j.2
  have hexists : ∀ j : Fin (stepsOf list).length, ∃ todo, s'.doc.todos[keys j]? = some todo ∧ todo.face =
      ⟨((stepsOf list).get j).text, ((stepsOf list).get j).status,
        some (s.orderAfter harness holder (stepsOf list) j), none⟩ :=
    fun j => Doc.face_eq_some.mp (hplaced.face j _ (hget j))
  choose todoAt htodo hface using hexists
  have hkind : ∀ j, (todoAt j).status.kind = ((stepsOf list).get j).status := fun j => congrArg Face.kind (hface j)
  have hid : ∀ j, (todoAt j).id = idOf (keys j) := fun j => hplaced.numbered.keyed (htodo j)
  have hsort : (s'.openMirrored harness holder).insertionSort ShownBefore =
      ((List.finRange (stepsOf list).length).filter fun j => ((stepsOf list).get j).status.isOpen).map todoAt := by
    refine insertionSort_eq_of_perm ?_ ?_
    · refine (List.perm_ext_iff_of_nodup ?_ ?_).mpr fun todo => ?_
      · exact (List.Nodup.of_map Todo.id hplaced.numbered.distinct).filter _
      · refine ((List.nodup_finRange _).filter _).map_on fun i _ j _ heq => ?_
        have hkeys : idOf (keys i) = idOf (keys j) := (hid i).symm.trans ((congrArg Todo.id heq).trans (hid j))
        exact Fin.ext (hplaced.inj i i.2 j j.2 (idOf_inj.mp hkeys))
      · exact hplaced.mem_openMirrored htodo hkind
    · rw [List.pairwise_map, List.pairwise_filter]
      refine (List.pairwise_lt_finRange _).imp fun {i j} hij hi hj => ?_
      exact shownBefore_of_lt (congrArg Face.order (hface i)) (congrArg Face.order (hface j))
        (hlt i j _ _ hij (hget i) (hget j) hi hj)
  have hopen : (stepsOf list).filter (fun step => step.status.isOpen) =
      ((List.finRange (stepsOf list).length).filter fun j => ((stepsOf list).get j).status.isOpen).map
        (stepsOf list).get := by
    have hfilter := List.filter_map (f := (stepsOf list).get) (p := fun step => step.status.isOpen)
      (l := List.finRange (stepsOf list).length)
    rwa [List.map_get_finRange] at hfilter
  rw [Spells, hsort, hopen, List.map_map, List.map_map]
  exact List.map_congr_left fun j _ => congrArg Face.description (hface j)

end Placed

end Mirroring

end Devkit.Todos.Native
