import Devkit.Library.Alignment
import Devkit.Todos.Item
import Mathlib.Data.List.DropRight

/-!
# Finding a template's lines in a body

The skeleton's anchors are paired with the live lines they fit, as many as can be paired in order. A table
filled from its last row and column counts the pairs still to come, and a walk over it from the first row and
column collects them. Both run over any selection of the lines, in the order the selection lists them.

The `pr_body` template is rendered once with every variable as its slot. A line of that skeleton fits a line
of a live body when its own text stands there in order, with anything where its slots are. Text is a list of
characters.
-/

namespace Devkit.PullRequest

open Devkit.Todos (isWhitespace)
open Devkit.Library

/-- What opens a variable's slot. -/
def slotOpen : List Char := "@@devkit-slot:".toList

/-- What closes a variable's slot. -/
def slotClose : List Char := "@@".toList

/-- One line of a text and where it sits, its newline included. -/
structure Line where
  text : List Char
  start : ℕ
  stop : ℕ
deriving DecidableEq

/-- A text without whitespace at its end. -/
def trimEnd (text : List Char) : List Char := text.rdropWhile isWhitespace

/-- A text without whitespace at its ends. -/
def trim (text : List Char) : List Char := trimEnd (text.dropWhile isWhitespace)

/-- What stands before and after the first place of a part. -/
def breakOn (part : List Char) : List Char → Option (List Char × List Char)
  | [] => if part = [] then some ([], []) else none
  | c :: text =>
    if part.isPrefixOf (c :: text) then some ([], (c :: text).drop part.length)
    else (breakOn part text).map fun cut => (c :: cut.1, cut.2)

/-- A part and what stands around it make up the text. -/
theorem breakOn_eq_some {part text before after : List Char} (h : breakOn part text = some (before, after)) :
    text = before ++ (part ++ after) := by
  induction text generalizing before with
  | nil =>
    rw [breakOn] at h
    split at h
    · rename_i hpart
      cases h
      rw [hpart]
      rfl
    · cases h
  | cons c text ih =>
    rw [breakOn] at h
    split at h
    · rename_i hprefix
      cases h
      exact (List.prefix_iff_eq_append.mp (List.isPrefixOf_iff_prefix.mp hprefix)).symm
    · obtain ⟨⟨first, rest⟩, hrest, hcut⟩ := Option.map_eq_some_iff.mp h
      cases hcut
      rw [ih hrest]
      rfl

/-- The template's own text on a skeleton line, split around each slot. -/
def segments (text : List Char) : List (List Char) :=
  match _h : breakOn slotOpen text with
  | none => [text]
  | some (before, after) =>
    before :: segments (match breakOn slotClose after with
      | some (_, rest) => rest
      | none => [])
termination_by text.length
decreasing_by
  have htext := congrArg List.length (breakOn_eq_some _h)
  have hopen : slotOpen.length = 14 := rfl
  simp only [List.length_append] at htext
  split
  · rename_i hclose
    have hafter := congrArg List.length (breakOn_eq_some hclose)
    simp only [List.length_append] at hafter
    omega
  · simp only [List.length_nil]
    omega

/-- A live line is what a skeleton line renders to: its own text in order, with anything where its slots are.
A line with text before its first slot fits by that text alone. -/
def fits (pattern text : List Char) : Bool :=
  match segments pattern with
  | [] => false
  | first :: afterFirst =>
    if afterFirst ≠ [] ∧ trim first ≠ [] then first.isPrefixOf text || text == trimEnd first
    else
      match text.dropPrefix? first with
      | none => false
      | some rest =>
        match afterFirst.getLast? with
        | none => rest.isEmpty
        | some last =>
          match afterFirst.dropLast.foldlM (fun rest part => (breakOn part rest).map Prod.snd) rest with
          | none => false
          | some rest => last.isSuffixOf rest

section Table

variable {A B : Type*}

/-- One row of the table, filled from its last column, over the row below it. -/
def fillRow (same : B → Bool) : List B → List ℕ → List ℕ
  | [], _ => [0]
  | b :: rows, below =>
    let row := fillRow same rows below.tail
    (if same b then below.tail.headD 0 + 1 else max (below.headD 0) (row.headD 0)) :: row

/-- The table, filled from its last row. -/
def fillTable (same : A → B → Bool) (rows : List B) : List A → List (List ℕ)
  | [] => [List.replicate (rows.length + 1) 0]
  | a :: anchors =>
    let rest := fillTable same rows anchors
    fillRow (same a) rows (rest.headD []) :: rest

/-- The entry of a table at a row and a column. -/
def cell (rest : List (List ℕ)) (i j : ℕ) : ℕ := (rest.getD i []).getD j 0

/-- The places paired by the walk over a table from a row and a column on. -/
def walkBack (same : A → B → Bool) (rest : List (List ℕ)) (anchors : List A) (rows : List B) (i j : ℕ) :
    List (Fin anchors.length × Fin rows.length) :=
  if h : i < anchors.length ∧ j < rows.length then
    have hi := h.1
    have hj := h.2
    if same anchors[i] rows[j] && cell rest i j == cell rest (i + 1) (j + 1) + 1 then
      (⟨i, hi⟩, ⟨j, hj⟩) :: walkBack same rest anchors rows (i + 1) (j + 1)
    else if cell rest i (j + 1) ≤ cell rest (i + 1) j then walkBack same rest anchors rows (i + 1) j
    else walkBack same rest anchors rows i (j + 1)
  else []
termination_by (anchors.length - i) + (rows.length - j)

@[simp] theorem fillRow_nil (same : B → Bool) (below : List ℕ) : fillRow same [] below = [0] := rfl

theorem fillRow_cons (same : B → Bool) (b : B) (rows : List B) (below : List ℕ) :
    fillRow same (b :: rows) below =
      (if same b then below.tail.headD 0 + 1 else max (below.headD 0) ((fillRow same rows below.tail).headD 0)) ::
        fillRow same rows below.tail := rfl

/-- From a column on, a row is filled as the row of the columns from there on. -/
theorem drop_fillRow (same : B → Bool) {rows : List B} (below : List ℕ) {j : ℕ} (hj : j ≤ rows.length) :
    (fillRow same rows below).drop j = fillRow same (rows.drop j) (below.drop j) := by
  induction j generalizing rows below with
  | zero => rfl
  | succ j ih =>
    cases rows with
    | nil => simp at hj
    | cons b rows =>
      rw [fillRow_cons, List.drop_succ_cons, List.drop_succ_cons, ih below.tail (by simpa using hj), List.drop_tail]

/-- From a row on, a table is filled as the table of the rows from there on. -/
theorem drop_fillTable (same : A → B → Bool) (rows : List B) {anchors : List A} {i : ℕ} (hi : i ≤ anchors.length) :
    (fillTable same rows anchors).drop i = fillTable same rows (anchors.drop i) := by
  induction i generalizing anchors with
  | zero => rfl
  | succ i ih =>
    cases anchors with
    | nil => simp at hi
    | cons a anchors =>
      rw [fillTable, List.drop_succ_cons, List.drop_succ_cons]
      exact ih (by simpa using hi)

/-- An entry is the first one of what is left of the table from there on. -/
theorem cell_eq_headD (rest : List (List ℕ)) (i j : ℕ) :
    cell rest i j = (((rest.drop i).headD []).drop j).headD 0 := by
  rw [cell, List.headD_eq_head?_getD, List.head?_drop, List.headD_eq_head?_getD, List.head?_drop,
    List.getD_eq_getElem?_getD, List.getD_eq_getElem?_getD]

/-- The filled table counts the pairs still to come. -/
theorem countsPairs_fillTable (same : A → B → Bool) (anchors : List A) (rows : List B)
    {related : ℕ → ℕ → Bool}
    (hrelated : ∀ i j (hi : i < anchors.length) (hj : j < rows.length), related i j = same anchors[i] rows[j]) :
    CountsPairs related anchors.length rows.length (cell (fillTable same rows anchors)) := by
  refine ⟨fun j => ?_, fun i hi => ?_, fun i j hi hj => ?_⟩
  · rw [cell_eq_headD, drop_fillTable same rows (Nat.le_refl _), List.drop_length, fillTable]
    rw [List.headD_cons, List.drop_replicate]
    cases rows.length + 1 - j with
    | zero => rfl
    | succ left => rfl
  · rw [cell_eq_headD, drop_fillTable same rows hi]
    cases anchors.drop i with
    | nil => rw [fillTable, List.headD_cons, List.drop_replicate, Nat.add_sub_cancel_left]; rfl
    | cons a rest =>
      rw [fillTable, List.headD_cons, drop_fillRow _ _ (Nat.le_refl _), List.drop_length, fillRow_nil]
      rfl
  · rw [hrelated i j hi hj, cell_eq_headD, cell_eq_headD, cell_eq_headD, cell_eq_headD,
      drop_fillTable same rows (Nat.le_of_lt hi), drop_fillTable same rows (Nat.succ_le_of_lt hi),
      List.drop_eq_getElem_cons hi, fillTable, List.headD_cons, drop_fillRow _ _ (Nat.le_of_lt hj),
      drop_fillRow _ _ (Nat.succ_le_of_lt hj), List.drop_eq_getElem_cons hj, fillRow_cons, List.headD_cons,
      List.tail_drop]

variable {same : A → B → Bool} {rest : List (List ℕ)} {anchors : List A} {rows : List B}

/-- Every place of the walk is at or after its start and is paired with what it suits. -/
theorem mem_walkBack {i j : ℕ} {place : Fin anchors.length × Fin rows.length}
    (h : place ∈ walkBack same rest anchors rows i j) :
    i ≤ place.1 ∧ j ≤ place.2 ∧ same anchors[place.1] rows[place.2] = true := by
  fun_induction walkBack same rest anchors rows i j with
  | case1 i j hend hi hj hsame ih =>
    rw [Bool.and_eq_true] at hsame
    cases List.mem_cons.mp h with
    | inl heq =>
      rw [heq]
      exact ⟨Nat.le_refl _, Nat.le_refl _, hsame.1⟩
    | inr hlater =>
      have hplace := ih hlater
      exact ⟨by omega, by omega, hplace.2.2⟩
  | case2 i j hend hi hj hsame hdown ih =>
    have hplace := ih h
    exact ⟨by omega, hplace.2⟩
  | case3 i j hend hi hj hsame hdown ih =>
    have hplace := ih h
    exact ⟨hplace.1, by omega, hplace.2.2⟩
  | case4 => simp at h

/-- The places of the walk rise on both sides. -/
theorem pairwise_walkBack (same : A → B → Bool) (rest : List (List ℕ)) (anchors : List A) (rows : List B) (i j : ℕ) :
    (walkBack same rest anchors rows i j).Pairwise fun place later => place.1 < later.1 ∧ place.2 < later.2 := by
  fun_induction walkBack same rest anchors rows i j with
  | case1 i j hend hi hj hsame ih =>
    apply List.Pairwise.cons _ ih
    intro later hlater
    have hplace := mem_walkBack hlater
    exact ⟨Fin.lt_def.mpr hplace.1, Fin.lt_def.mpr hplace.2.1⟩
  | case2 i j hend hi hj hsame hdown ih => exact ih
  | case3 i j hend hi hj hsame hdown ih => exact ih
  | case4 => exact List.Pairwise.nil

/-- The walk collects as many places as the table counts. -/
theorem length_walkBack {related : ℕ → ℕ → Bool}
    (hrelated : ∀ i j (hi : i < anchors.length) (hj : j < rows.length), related i j = same anchors[i] rows[j])
    (hcell : CountsPairs related anchors.length rows.length (cell rest)) {i j : ℕ} (hi : i ≤ anchors.length)
    (hj : j ≤ rows.length) : (walkBack same rest anchors rows i j).length = cell rest i j := by
  fun_induction walkBack same rest anchors rows i j with
  | case1 i j hend hi' hj' hsame ih =>
    rw [Bool.and_eq_true, beq_iff_eq] at hsame
    rw [List.length_cons, ih (by omega) (by omega), hsame.2]
  | case2 i j hend hi' hj' hsame hdown ih =>
    rw [ih (by omega) hj]
    have hstep := hcell.step i j hi' hj'
    cases hpair : related i j with
    | true =>
      rw [hpair, if_pos rfl] at hstep
      rw [← hrelated i j hi' hj', hpair, hstep] at hsame
      simp at hsame
    | false =>
      rw [hpair, if_neg Bool.false_ne_true] at hstep
      omega
  | case3 i j hend hi' hj' hsame hdown ih =>
    rw [ih hi (by omega)]
    have hstep := hcell.step i j hi' hj'
    cases hpair : related i j with
    | true =>
      rw [hpair, if_pos rfl] at hstep
      rw [← hrelated i j hi' hj', hpair, hstep] at hsame
      simp at hsame
    | false =>
      rw [hpair, if_neg Bool.false_ne_true] at hstep
      omega
  | case4 i j hend =>
    rw [List.length_nil]
    by_cases hlast : i = anchors.length
    · rw [hlast, hcell.bottom]
    · have hright : j = rows.length := by omega
      rw [hright, hcell.right i hi]

end Table

/-- The skeleton's anchors paired with the live lines they fit, as many as can be paired in order: a longest
common subsequence, taken in the order `anchors` and `rows` walk. -/
def align (sk : List Line) (anchors : List (Fin sk.length)) (body : List Line) (rows : List (Fin body.length)) :
    List (Fin sk.length × Fin body.length) :=
  let same := fun a b => fits sk[a].text body[b].text
  let rest := fillTable same rows anchors
  (walkBack same rest anchors rows 0 0).map fun place => (anchors[place.1], rows[place.2])

section Maximum

variable (sk : List Line) (anchors : List (Fin sk.length)) (body : List Line) (rows : List (Fin body.length))

/-- Each pair of places is of an anchor and a live line it fits. -/
def FittingPlaces (places : Finset (Fin anchors.length × Fin rows.length)) : Prop :=
  ∀ place ∈ places, fits sk[anchors[place.1]].text body[rows[place.2]].text = true

/-- The anchor at the first place fits the live line at the second. -/
def fitsAt (i j : ℕ) : Bool :=
  if h : i < anchors.length ∧ j < rows.length then
    have hi := h.1
    have hj := h.2
    fits sk[anchors[i]].text body[rows[j]].text
  else false

variable {sk anchors body rows}

/-- Within the lists the anchor and the live line are those at the places. -/
theorem fitsAt_eq (i j : ℕ) (hi : i < anchors.length) (hj : j < rows.length) :
    fitsAt sk anchors body rows i j = fits sk[anchors[i]].text body[rows[j]].text :=
  dif_pos ⟨hi, hj⟩

/-- Places in the two lists, as numbers. -/
def placeNumbers : Fin anchors.length × Fin rows.length ↪ ℕ × ℕ where
  toFun place := (place.1, place.2)
  inj' _ _ h := Prod.ext (Fin.ext (Prod.mk.inj h).1) (Fin.ext (Prod.mk.inj h).2)

/-- Fitting places are placed from the start of both lists on. -/
theorem FittingPlaces.placedFrom {places : Finset (Fin anchors.length × Fin rows.length)}
    (h : FittingPlaces sk anchors body rows places) :
    PlacedFrom (fitsAt sk anchors body rows) anchors.length rows.length 0 0 (places.map placeNumbers) := by
  intro pair hpair
  obtain ⟨place, hplace, rfl⟩ := Finset.mem_map.mp hpair
  refine ⟨Nat.zero_le _, place.1.isLt, Nat.zero_le _, place.2.isLt, ?_⟩
  rw [← h place hplace]
  exact fitsAt_eq _ _ place.1.isLt place.2.isLt

/-- Places in one order on both sides are so as numbers. -/
theorem orderPreserving_placeNumbers {places : Finset (Fin anchors.length × Fin rows.length)}
    (h : OrderPreserving places) : OrderPreserving (places.map placeNumbers) := by
  intro pair hpair other hother hne
  obtain ⟨place, hplace, rfl⟩ := Finset.mem_map.mp hpair
  obtain ⟨later, hlater, rfl⟩ := Finset.mem_map.mp hother
  exact h place hplace later hlater fun heq => hne (congrArg placeNumbers heq)

variable (sk anchors body rows)

/-- `align` returns a maximum matching: its pairs come from places that rise on both sides, each pair fits, and no
order-preserving set of fitting pairs is larger. -/
theorem align_maximum :
    ∃ places : List (Fin anchors.length × Fin rows.length),
      align sk anchors body rows = places.map (fun place => (anchors[place.1], rows[place.2])) ∧
      places.Pairwise (fun place later => place.1 < later.1 ∧ place.2 < later.2) ∧
      (∀ place ∈ places, fits sk[anchors[place.1]].text body[rows[place.2]].text = true) ∧
      ∀ other, FittingPlaces sk anchors body rows other → OrderPreserving other → other.card ≤ places.length := by
  have hcell := countsPairs_fillTable (fun a b => fits sk[a].text body[b].text) anchors rows fitsAt_eq
  refine ⟨_, rfl, pairwise_walkBack _ _ anchors rows 0 0, fun place hplace => (mem_walkBack hplace).2.2,
    fun other hfits horder => ?_⟩
  rw [length_walkBack fitsAt_eq hcell (Nat.zero_le _) (Nat.zero_le _), ← Finset.card_map placeNumbers]
  exact hcell.card_le (Nat.zero_le _) (Nat.zero_le _) hfits.placedFrom (orderPreserving_placeNumbers horder)

end Maximum

end Devkit.PullRequest
