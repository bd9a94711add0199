import Devkit.PullRequest.Splice
import Mathlib.Order.WellFounded

/-!
# Splicing a body that still has its pieces

A body is a piece for each line of the skeleton: the piece of an anchor begins with a row that the anchor fits, and
no other row fits any anchor. What bots and people add stays inside the pieces. Then every anchor is found in its
piece, a splice replaces exactly the pieces of its section, and one section after another can be spliced.
-/

namespace Devkit.PullRequest

open Devkit.Library

section Unique

variable {sk body : List Line} {anchors : List (Fin sk.length)} {rows : List (Fin body.length)}

/-- Where only one row is left for each anchor, an alignment pairs every anchor with its row. -/
theorem mem_align_iff_of_only (place : Fin anchors.length → Fin rows.length) (hrises : StrictMono place)
    (hfits : ∀ a, fits sk[anchors[a]].text body[rows[place a]].text = true)
    (honly : ∀ (a : Fin anchors.length) (row : Fin rows.length),
      fits sk[anchors[a]].text body[rows[row]].text = true → ∃ other, place other = row)
    (pair : Fin sk.length × Fin body.length) :
    pair ∈ align sk anchors body rows ↔ ∃ a, (anchors[a], rows[place a]) = pair := by
  obtain ⟨places, halign, hrising, hfitting, hmost⟩ := align_maximum sk anchors body rows
  have hfirsts : (places.map Prod.fst).Pairwise (· < ·) := List.pairwise_map.mpr (hrising.imp And.left)
  have hatMost : places.length ≤ anchors.length := by
    have hnodup : (places.map Prod.fst).Nodup := hfirsts.imp fun h => h.ne
    have hcard := hnodup.length_le_card
    rwa [List.length_map, Fintype.card_fin] at hcard
  have hatLeast : anchors.length ≤ places.length := by
    have hcard := hmost (Finset.univ.image fun a => (a, place a))
      (fun pair hpair => by
        obtain ⟨a, _, rfl⟩ := Finset.mem_image.mp hpair
        exact hfits a)
      (fun pair hpair other hother hne => by
        obtain ⟨a, _, rfl⟩ := Finset.mem_image.mp hpair
        obtain ⟨b, _, rfl⟩ := Finset.mem_image.mp hother
        rcases lt_trichotomy a b with hlt | rfl | hlt
        · exact Or.inl ⟨hlt, hrises hlt⟩
        · exact absurd rfl hne
        · exact Or.inr ⟨hlt, hrises hlt⟩)
    rwa [Finset.card_image_of_injective _ fun a b hab => (Prod.mk.inj hab).1, Finset.card_univ, Fintype.card_fin]
      at hcard
  obtain ⟨graph, hgraph, hmem⟩ := exists_graph_of_rising hrising (Nat.le_antisymm hatMost hatLeast)
  have hrange : Finset.univ.image graph = Finset.univ.image place := by
    apply Finset.eq_of_subset_of_card_le
    · intro row hrow
      obtain ⟨a, _, rfl⟩ := Finset.mem_image.mp hrow
      obtain ⟨other, hother⟩ := honly a (graph a) (hfitting _ ((hmem (a, graph a)).mpr rfl))
      exact Finset.mem_image.mpr ⟨other, Finset.mem_univ other, hother⟩
    · rw [Finset.card_image_of_injective _ hgraph.injective, Finset.card_image_of_injective _ hrises.injective]
  have hsame : graph = place := by
    apply (hgraph.range_inj hrises).mp
    simpa using Finset.coe_inj.mpr hrange
  subst hsame
  rw [halign, List.mem_map]
  constructor
  · rintro ⟨⟨a, row⟩, hfound, rfl⟩
    obtain rfl : row = graph a := (hmem (a, row)).mp hfound
    exact ⟨a, rfl⟩
  · rintro ⟨a, rfl⟩
    exact ⟨(a, graph a), (hmem _).mpr rfl, rfl⟩

end Unique

section Texts

variable {text more : Text}

/-- The lines of a text make it up. -/
theorem flatten_splitInclusive (text : Text) : (splitInclusive text).flatten = text := by
  rw [splitInclusive, List.flatten_append]
  have hall := flatten_cutLines '\n' text
  split
  · rename_i hnone
    rwa [hnone] at hall
  · rwa [List.flatten_singleton]

/-- A text that ends with its last line splits apart from what follows it. -/
theorem splitInclusive_append (h : sinceLast '\n' text = 0) (more : Text) :
    splitInclusive (text ++ more) = splitInclusive text ++ splitInclusive more := by
  have hnone : (cutLines '\n' text).2 = [] := List.length_eq_zero_iff.mp h
  rw [splitInclusive, splitInclusive, splitInclusive, cutLines_append, hnone, List.nil_append, if_pos rfl,
    List.append_nil, List.map_append, List.append_assoc]

@[simp] theorem length_placedLines (start : ℕ) (raws : List Text) :
    (placedLines start raws).length = raws.length := by
  induction raws generalizing start with
  | nil => rfl
  | cons raw rest ih => rw [placedLines, List.length_cons, ih, List.length_cons]

/-- A line sits where the lines before it end. -/
theorem getElem_placedLines (start : ℕ) (raws : List Text) (i : ℕ) (hi : i < raws.length)
    {hplaced : i < (placedLines start raws).length} :
    (placedLines start raws)[i] =
      ⟨trimEnd raws[i], start + (raws.take i).flatten.length, start + (raws.take (i + 1)).flatten.length⟩ := by
  induction raws generalizing start i with
  | nil => exact absurd hi (Nat.not_lt_zero i)
  | cons raw rest ih =>
    cases i with
    | zero => simp [placedLines]
    | succ i =>
      simp only [placedLines, List.getElem_cons_succ, List.take_succ_cons, List.flatten_cons, List.length_append]
      rw [ih (start + raw.length) i (Nat.lt_of_succ_lt_succ hi), Nat.add_assoc, Nat.add_assoc]

/-- A text has as many placed lines as lines. -/
theorem length_lines (text : Text) : (lines text).length = (splitInclusive text).length := length_placedLines 0 _

/-- Where a line of a text sits. -/
theorem getElem_lines (text : Text) (i : ℕ) (hi : i < (splitInclusive text).length)
    {hplaced : i < (lines text).length} :
    (lines text)[i] =
      ⟨trimEnd (splitInclusive text)[i], ((splitInclusive text).take i).flatten.length,
        ((splitInclusive text).take (i + 1)).flatten.length⟩ := by
  have hline := @getElem_placedLines 0 (splitInclusive text) i hi hplaced
  rwa [Nat.zero_add, Nat.zero_add] at hline

end Texts

section Join

variable {piece : ℕ → Text}

/-- The pieces put together. -/
def join (n : ℕ) (piece : ℕ → Text) : Text := (List.range n).flatMap piece

/-- The rows of the pieces. -/
def rowsOf (n : ℕ) (piece : ℕ → Text) : List Text := (List.range n).flatMap fun k => splitInclusive (piece k)

/-- The pieces before one, that piece, and the pieces after it. -/
theorem flatMap_range_split {A : Type*} (f : ℕ → List A) {k n : ℕ} (h : k < n) :
    (List.range n).flatMap f =
      (List.range k).flatMap f ++ (f k ++ (List.range (n - k - 1)).flatMap fun j => f (k + 1 + j)) := by
  obtain ⟨m, rfl⟩ := Nat.exists_eq_add_of_lt h
  have hrest : k + m + 1 - k - 1 = m := by omega
  rw [hrest, Nat.add_assoc, List.range_add, List.flatMap_append, List.range_succ_eq_map, List.map_cons,
    List.flatMap_cons, Nat.add_zero, List.map_map, List.flatMap_map]
  congr 3
  funext j
  exact congrArg f (by simp only [Function.comp_apply]; omega)

/-- The rows of the pieces make up the pieces. -/
theorem flatten_rowsOf (n : ℕ) (piece : ℕ → Text) : (rowsOf n piece).flatten = join n piece := by
  induction n with
  | zero => rfl
  | succ n ih =>
    rw [rowsOf, join, List.range_succ, List.flatMap_append, List.flatMap_append, List.flatten_append]
    exact congrArg₂ _ ih (by simp [flatten_splitInclusive])

theorem join_succ (n : ℕ) (piece : ℕ → Text) : join (n + 1) piece = join n piece ++ piece n := by
  rw [join, List.range_succ, List.flatMap_append, List.flatMap_singleton]
  rfl

theorem rowsOf_succ (n : ℕ) (piece : ℕ → Text) : rowsOf (n + 1) piece = rowsOf n piece ++ splitInclusive (piece n) := by
  rw [rowsOf, List.range_succ, List.flatMap_append, List.flatMap_singleton]
  rfl

/-- Pieces that end with their last line end with it put together. -/
theorem sinceLast_join {n : ℕ} (h : ∀ k < n, sinceLast '\n' (piece k) = 0) : sinceLast '\n' (join n piece) = 0 := by
  induction n with
  | zero => rfl
  | succ n ih =>
    have hbefore : (cutLines '\n' (join n piece)).2 = [] :=
      List.length_eq_zero_iff.mp (ih fun k hk => h k (Nat.lt_succ_of_lt hk))
    rw [join_succ, sinceLast_append, hbefore, List.nil_append]
    exact h n (Nat.lt_succ_self n)

/-- Where every piece but the last ends with its last line, the lines of the pieces put together are their rows. -/
theorem splitInclusive_join {n : ℕ} (h : ∀ k, k + 1 < n → sinceLast '\n' (piece k) = 0) :
    splitInclusive (join n piece) = rowsOf n piece := by
  induction n with
  | zero => rfl
  | succ n ih =>
    have hended := sinceLast_join fun k (hk : k < n) => h k (Nat.succ_lt_succ hk)
    rw [join_succ, rowsOf_succ, splitInclusive_append hended, ih fun k hk => h k (by omega)]

/-- How many rows come before a piece. -/
def rowIndex (piece : ℕ → Text) (k : ℕ) : ℕ := (rowsOf k piece).length

theorem rowIndex_succ (piece : ℕ → Text) (k : ℕ) :
    rowIndex piece (k + 1) = rowIndex piece k + (splitInclusive (piece k)).length := by
  rw [rowIndex, rowsOf_succ, List.length_append, rowIndex]

/-- A later piece has no fewer rows before it. -/
theorem rowIndex_mono (piece : ℕ → Text) : Monotone (rowIndex piece) :=
  monotone_nat_of_le_succ fun k => by rw [rowIndex_succ]; exact Nat.le_add_right _ _

/-- The rows up to a piece are those of the pieces before it. -/
theorem take_rowsOf {n k : ℕ} (h : k ≤ n) : (rowsOf n piece).take (rowIndex piece k) = rowsOf k piece := by
  rcases Nat.lt_or_eq_of_le h with hlt | rfl
  · have hsplit : rowsOf n piece = rowsOf k piece ++ _ := flatMap_range_split _ hlt
    rw [rowIndex, hsplit]
    exact List.take_left
  · exact List.take_length

/-- A row of a piece is a row of them all. -/
theorem getElem?_rowsOf {n k place : ℕ} (h : k < n) (hplace : place < (splitInclusive (piece k)).length) :
    (rowsOf n piece)[rowIndex piece k + place]? = (splitInclusive (piece k))[place]? := by
  have hrows : rowIndex piece k = ((List.range k).flatMap fun k => splitInclusive (piece k)).length := rfl
  rw [rowsOf, flatMap_range_split _ h, hrows, List.getElem?_append_right (Nat.le_add_right _ _),
    Nat.add_sub_cancel_left, List.getElem?_append_left hplace]

/-- Every row is of a piece. -/
theorem exists_piece_of_row {n i : ℕ} (h : i < (rowsOf n piece).length) :
    ∃ k < n, ∃ place < (splitInclusive (piece k)).length, i = rowIndex piece k + place := by
  induction n with
  | zero => exact absurd h (Nat.not_lt_zero i)
  | succ n ih =>
    rw [rowsOf_succ, List.length_append] at h
    by_cases hbefore : i < (rowsOf n piece).length
    · obtain ⟨k, hk, hplace⟩ := ih hbefore
      exact ⟨k, Nat.lt_succ_of_lt hk, hplace⟩
    · have hrows : rowIndex piece n = (rowsOf n piece).length := rfl
      exact ⟨n, Nat.lt_succ_self n, i - (rowsOf n piece).length, by omega, by omega⟩

end Join

section Laid

/-- No anchor fits the row. -/
def Foreign (sk : List Line) (row : Text) : Prop :=
  ∀ i : Fin sk.length, isAnchor (sk.get i).text = true → fits (sk.get i).text (trimEnd row) = false

/-- The piece is one that may stand in a body for a skeleton line: that of an anchor begins with a row the anchor
fits, no other row fits any anchor, and only the last piece may end within a line. -/
def LaidPiece (sk : List Line) (i : Fin sk.length) (piece : Text) : Prop :=
  (i + 1 < sk.length → sinceLast '\n' piece = 0) ∧
    if isAnchor (sk.get i).text = true then
      ((splitInclusive piece).head?.any fun row => fits (sk.get i).text (trimEnd row)) = true ∧
        ∀ other ∈ (splitInclusive piece).tail, Foreign sk other
    else ∀ row ∈ splitInclusive piece, Foreign sk row

instance (sk : List Line) (row : Text) : Decidable (Foreign sk row) := by
  unfold Foreign
  infer_instance

instance (sk : List Line) (i : Fin sk.length) (piece : Text) : Decidable (LaidPiece sk i piece) := by
  unfold LaidPiece
  infer_instance

/-- The pieces may stand in a body for the skeleton's lines. -/
def Laid (sk : List Line) (piece : ℕ → Text) : Prop := ∀ i : Fin sk.length, LaidPiece sk i (piece i)

instance (sk : List Line) (piece : ℕ → Text) : Decidable (Laid sk piece) := by
  unfold Laid
  infer_instance

variable {sk : List Line} {piece : ℕ → Text}

/-- The piece of an anchor is a row it fits and rows no anchor fits. -/
theorem LaidPiece.exists_rows {i : Fin sk.length} {piece : Text} (h : LaidPiece sk i piece)
    (hanchor : isAnchor (sk.get i).text = true) :
    ∃ row rest, splitInclusive piece = row :: rest ∧ fits (sk.get i).text (trimEnd row) = true ∧
      ∀ other ∈ rest, Foreign sk other := by
  have hpiece := h.2
  rw [if_pos hanchor] at hpiece
  cases hrows : splitInclusive piece with
  | nil =>
    rw [hrows] at hpiece
    cases hpiece.1
  | cons row rest =>
    rw [hrows] at hpiece
    exact ⟨row, rest, rfl, hpiece.1, hpiece.2⟩

/-- The lines of a laid body are the rows of its pieces. -/
theorem Laid.splitInclusive_eq (h : Laid sk piece) : splitInclusive (join sk.length piece) = rowsOf sk.length piece :=
  splitInclusive_join fun k hk => (h ⟨k, by omega⟩).1 hk

/-- A laid body has as many lines as its pieces have rows. -/
theorem Laid.length_lines (h : Laid sk piece) :
    (lines (join sk.length piece)).length = (rowsOf sk.length piece).length := by
  rw [PullRequest.length_lines, h.splitInclusive_eq]

/-- The piece of an anchor has a first row. -/
theorem Laid.length_pos (h : Laid sk piece) {i : Fin sk.length} (hanchor : isAnchor (sk.get i).text = true) :
    0 < (splitInclusive (piece i)).length := by
  obtain ⟨row, rest, hrows, _⟩ := (h i).exists_rows hanchor
  rw [hrows]
  exact Nat.succ_pos _

/-- The first row of an anchor's piece is a line of the body. -/
theorem Laid.rowIndex_lt (h : Laid sk piece) {i : Fin sk.length} (hanchor : isAnchor (sk.get i).text = true) :
    rowIndex piece i < (lines (join sk.length piece)).length := by
  rw [h.length_lines]
  have hnext := rowIndex_mono piece (Nat.succ_le_of_lt i.isLt)
  rw [rowIndex_succ] at hnext
  have hpositive := h.length_pos hanchor
  exact Nat.lt_of_lt_of_le (by omega) hnext

/-- Where a row of a piece sits in the body. -/
theorem Laid.getElem_lines (h : Laid sk piece) {k place : ℕ} (hk : k < sk.length)
    (hplace : place < (splitInclusive (piece k)).length)
    (hi : rowIndex piece k + place < (lines (join sk.length piece)).length) :
    (lines (join sk.length piece))[rowIndex piece k + place].text = trimEnd (splitInclusive (piece k))[place] := by
  have hlt : rowIndex piece k + place < (splitInclusive (join sk.length piece)).length := by
    rwa [← PullRequest.length_lines]
  rw [PullRequest.getElem_lines _ _ hlt]
  have hrow : (rowsOf sk.length piece)[rowIndex piece k + place]? = (splitInclusive (piece k))[place]? :=
    getElem?_rowsOf hk hplace
  rw [← h.splitInclusive_eq, List.getElem?_eq_getElem hlt, List.getElem?_eq_getElem hplace] at hrow
  exact congrArg trimEnd (Option.some.inj hrow)

/-- The row at which the body has an anchor. -/
def Laid.row (h : Laid sk piece) (i : Fin sk.length) (hanchor : isAnchor (sk.get i).text = true) :
    Fin (lines (join sk.length piece)).length :=
  ⟨rowIndex piece i, h.rowIndex_lt hanchor⟩

/-- An anchor fits the row at which the body has it. -/
theorem Laid.fits_row (h : Laid sk piece) {i : Fin sk.length} (hanchor : isAnchor (sk.get i).text = true) :
    fits (sk.get i).text ((lines (join sk.length piece)).get (h.row i hanchor)).text = true := by
  obtain ⟨row, rest, hrows, hfits, _⟩ := (h i).exists_rows hanchor
  have hline : ((lines (join sk.length piece)).get (h.row i hanchor)).text = _ :=
    h.getElem_lines i.isLt (h.length_pos hanchor) (h.rowIndex_lt hanchor)
  rw [hline]
  simp only [hrows, List.getElem_cons_zero]
  exact hfits

/-- An anchor fits only the rows at which the body has anchors. -/
theorem Laid.eq_row_of_fits (h : Laid sk piece) {i : Fin sk.length} (hanchor : isAnchor (sk.get i).text = true)
    {row : Fin (lines (join sk.length piece)).length}
    (hfits : fits (sk.get i).text ((lines (join sk.length piece)).get row).text = true) :
    ∃ (other : Fin sk.length) (hother : isAnchor (sk.get other).text = true), h.row other hother = row := by
  have hlt : row.val < (rowsOf sk.length piece).length := h.length_lines ▸ row.isLt
  obtain ⟨k, hk, place, hplace, hrow⟩ := exists_piece_of_row hlt
  have hline := h.getElem_lines hk hplace (hrow ▸ row.isLt)
  have hmem := List.getElem_mem hplace
  have htext : ((lines (join sk.length piece)).get row).text = trimEnd (splitInclusive (piece k))[place] := by
    rw [← hline]
    simp only [List.get_eq_getElem, hrow]
  rw [htext] at hfits
  have hpiece := (h ⟨k, hk⟩).2
  split at hpiece
  · rename_i hother
    obtain ⟨first, rest, hrows, _, hforeign⟩ := (h ⟨k, hk⟩).exists_rows hother
    cases place with
    | zero => exact ⟨⟨k, hk⟩, hother, Fin.ext hrow.symm⟩
    | succ place =>
      simp only [hrows, List.getElem_cons_succ] at hfits
      rw [hforeign _ (List.getElem_mem _) i hanchor] at hfits
      cases hfits
  · rw [hpiece _ hmem i hanchor] at hfits
    cases hfits

/-- The body has its anchors in the skeleton's order. -/
theorem Laid.row_lt (h : Laid sk piece) {i j : Fin sk.length} (hi : isAnchor (sk.get i).text = true)
    (hj : isAnchor (sk.get j).text = true) (hlt : i < j) : h.row i hi < h.row j hj := by
  have hnext : rowIndex piece (i + 1) ≤ rowIndex piece j := rowIndex_mono piece (Nat.succ_le_of_lt hlt)
  rw [rowIndex_succ] at hnext
  have hpositive := h.length_pos hi
  exact Fin.lt_def.mpr (Nat.lt_of_lt_of_le (by simp only [Laid.row]; omega) hnext)

/-- The anchors of a skeleton rise. -/
theorem pairwise_anchorsOf (sk : List Line) : (anchorsOf sk).Pairwise (· < ·) :=
  (List.pairwise_lt_finRange sk.length).filter _

/-- A line is among the anchors when it is one. -/
theorem mem_anchorsOf {i : Fin sk.length} : i ∈ anchorsOf sk ↔ isAnchor (sk.get i).text = true := by
  simp [anchorsOf]

/-- An alignment of a laid body, from either end, has every anchor where its piece begins. -/
theorem Laid.mem_align (h : Laid sk piece) {anchors : List (Fin sk.length)}
    {rows : List (Fin (lines (join sk.length piece)).length)}
    (hanchors : ∀ i : Fin sk.length, i ∈ anchors ↔ isAnchor (sk.get i).text = true) (hnodup : rows.Nodup)
    (index : Fin (lines (join sk.length piece)).length → Fin rows.length) (hindex : ∀ row, rows[index row] = row)
    (hrises : ∀ (a b : Fin anchors.length) (ha : isAnchor (sk.get anchors[a]).text = true)
      (hb : isAnchor (sk.get anchors[b]).text = true), a < b → index (h.row _ ha) < index (h.row _ hb))
    {i : Fin sk.length} {row : Fin (lines (join sk.length piece)).length} :
    (i, row) ∈ align sk anchors (lines (join sk.length piece)) rows ↔
      ∃ hanchor : isAnchor (sk.get i).text = true, h.row i hanchor = row := by
  have hanchor (a : Fin anchors.length) : isAnchor (sk.get anchors[a]).text = true :=
    (hanchors _).mp (List.getElem_mem _)
  rw [mem_align_iff_of_only (fun a => index (h.row _ (hanchor a))) fun a b hlt => hrises a b _ _ hlt]
  · constructor
    · rintro ⟨a, heq⟩
      obtain ⟨hfirst, hsecond⟩ := Prod.mk.inj heq
      subst hfirst
      exact ⟨hanchor a, by rw [← hsecond, hindex]⟩
    · rintro ⟨hi, rfl⟩
      obtain ⟨a, ha, rfl⟩ := List.getElem_of_mem ((hanchors i).mpr hi)
      exact ⟨⟨a, ha⟩, Prod.ext rfl (hindex _)⟩
  · intro a
    simp only [hindex]
    exact h.fits_row (hanchor a)
  · intro a r hfits
    obtain ⟨other, hother, heq⟩ := h.eq_row_of_fits (hanchor a) hfits
    obtain ⟨b, hb, rfl⟩ := List.getElem_of_mem ((hanchors other).mpr hother)
    have hsame : rows[index (h.row _ hother)] = rows[r] := (hindex _).trans heq
    have hplace : index (h.row _ hother) = r := Fin.ext ((List.Nodup.getElem_inj_iff hnodup).mp hsame)
    exact ⟨⟨b, hb⟩, hplace⟩

/-- From the start, a laid body has every anchor where its piece begins. -/
theorem Laid.mem_earliest (h : Laid sk piece) {i : Fin sk.length} {row : Fin (lines (join sk.length piece)).length} :
    (i, row) ∈ earliest sk (lines (join sk.length piece)) ↔
      ∃ hanchor : isAnchor (sk.get i).text = true, h.row i hanchor = row := by
  apply h.mem_align (fun i => mem_anchorsOf) (List.nodup_finRange _)
    (fun row => row.cast List.length_finRange.symm) (fun row => by simp)
  intro a b ha hb hlt
  exact h.row_lt ha hb (List.pairwise_iff_getElem.mp (pairwise_anchorsOf sk) a b a.isLt b.isLt hlt)

/-- From the end, a laid body has every anchor where its piece begins. -/
theorem Laid.mem_latest (h : Laid sk piece) {i : Fin sk.length} {row : Fin (lines (join sk.length piece)).length} :
    (i, row) ∈ latest sk (lines (join sk.length piece)) ↔
      ∃ hanchor : isAnchor (sk.get i).text = true, h.row i hanchor = row := by
  have hlength : (List.finRange (lines (join sk.length piece)).length).reverse.length =
      (lines (join sk.length piece)).length := by
    rw [List.length_reverse, List.length_finRange]
  apply h.mem_align (fun i => List.mem_reverse.trans mem_anchorsOf) (List.nodup_reverse.mpr (List.nodup_finRange _))
    (fun row => row.rev.cast hlength.symm)
  · intro row
    simp only [Fin.getElem_fin, Fin.val_cast, List.getElem_reverse, List.getElem_finRange]
    apply Fin.ext
    simp only [Fin.val_cast, Fin.val_rev, List.length_finRange]
    omega
  · intro a b ha hb hlt
    have hreverse := List.pairwise_reverse.mpr (pairwise_anchorsOf sk)
    have hfalls := List.pairwise_iff_getElem.mp hreverse a b a.isLt b.isLt hlt
    exact Fin.rev_lt_rev.mpr (h.row_lt hb ha hfalls)

/-- Which row an alignment pairs an anchor with, when it pairs each with one. -/
theorem rowOf_eq_some {A B : Type*} [DecidableEq A] {pairs : List (A × B)} {i : A} {b : B} (hmem : (i, b) ∈ pairs)
    (honly : ∀ other, (i, other) ∈ pairs → other = b) : rowOf pairs i = some b := by
  cases hfind : pairs.find? fun pair => pair.1 = i with
  | none => exact absurd (decide_eq_true rfl) (List.find?_eq_none.mp hfind (i, b) hmem)
  | some pair =>
    have hfirst : pair.1 = i := of_decide_eq_true (List.find?_some (p := fun pair : A × B => pair.1 = i) hfind)
    have hpair := honly pair.2 (hfirst ▸ List.mem_of_find?_eq_some hfind)
    rw [rowOf, hfind, ← hpair]
    rfl

/-- A laid body has every anchor at one row, whichever end it is looked for from. -/
theorem Laid.rowOf_eq (h : Laid sk piece) {i : Fin sk.length} (hanchor : isAnchor (sk.get i).text = true) :
    rowOf (earliest sk (lines (join sk.length piece))) i = some (h.row i hanchor) ∧
      rowOf (latest sk (lines (join sk.length piece))) i = some (h.row i hanchor) := by
  constructor
  · apply rowOf_eq_some (h.mem_earliest.mpr ⟨hanchor, rfl⟩)
    intro other hother
    obtain ⟨_, hrow⟩ := h.mem_earliest.mp hother
    exact hrow.symm
  · apply rowOf_eq_some (h.mem_latest.mpr ⟨hanchor, rfl⟩)
    intro other hother
    obtain ⟨_, hrow⟩ := h.mem_latest.mp hother
    exact hrow.symm

end Laid

section Spans

variable {piece new : ℕ → Text} {first stop n : ℕ}

/-- The pieces from one up to another, put together. -/
def between (first stop : ℕ) (piece : ℕ → Text) : Text := (List.range' first (stop - first)).flatMap piece

/-- The pieces with those of a span replaced. -/
def override (piece new : ℕ → Text) (first stop k : ℕ) : Text := if first ≤ k ∧ k < stop then new k else piece k

/-- The pieces before one and those from it on. -/
theorem join_eq_append (h : first ≤ n) : join n piece = join first piece ++ between first n piece := by
  obtain ⟨m, rfl⟩ := Nat.exists_eq_add_of_le h
  rw [join, join, between, Nat.add_sub_cancel_left, List.range_add, List.flatMap_append, List.range'_eq_map_range]

/-- The pieces from one to another and those from there on. -/
theorem between_eq_append (hfirst : first ≤ stop) (hstop : stop ≤ n) :
    between first n piece = between first stop piece ++ between stop n piece := by
  have hcount : n - first = (stop - first) + (n - stop) := by omega
  have hstart : first + (stop - first) = stop := by omega
  rw [between, between, between, hcount, ← List.range'_append_1, List.flatMap_append, hstart]

/-- Pieces that agree up to one are the same put together. -/
theorem join_congr {other : ℕ → Text} (h : ∀ k < n, piece k = other k) : join n piece = join n other :=
  List.flatMap_congr fun k hk => h k (List.mem_range.mp hk)

/-- Pieces that agree from one up to another are the same put together. -/
theorem between_congr {other : ℕ → Text} (h : ∀ k, first ≤ k → k < stop → piece k = other k) :
    between first stop piece = between first stop other := by
  apply List.flatMap_congr
  intro k hk
  obtain ⟨i, hi, rfl⟩ := List.mem_range'.mp hk
  exact h _ (by omega) (by omega)

/-- The pieces with a span replaced, put together. -/
theorem join_override (hfirst : first ≤ stop) (hstop : stop ≤ n) :
    join n (override piece new first stop) = join first piece ++ (between first stop new ++ between stop n piece) := by
  rw [join_eq_append (hfirst.trans hstop), between_eq_append hfirst hstop]
  congr 1
  · exact join_congr fun k hk => if_neg fun h => absurd h.1 (Nat.not_le_of_lt hk)
  · congr 1
    · exact between_congr fun k hk hlt => if_pos ⟨hk, hlt⟩
    · exact between_congr fun k hk _ => if_neg fun h => absurd h.2 (Nat.not_lt_of_le hk)

end Spans

section Places

variable {sk : List Line} {piece : ℕ → Text}

/-- The lines of a skeleton, by their place. -/
def rawLine (skeleton : Text) (k : ℕ) : Text := (splitInclusive skeleton).getD k []

/-- The lines of a skeleton up to one are those before it, put together. -/
theorem flatten_take_splitInclusive (skeleton : Text) (k : ℕ) :
    ((splitInclusive skeleton).take k).flatten = join k (rawLine skeleton) := by
  induction k with
  | zero => rfl
  | succ k ih =>
    rw [join_succ, ← ih, List.take_add_one, List.flatten_append]
    congr 1
    rw [rawLine, List.getD_eq_getElem?_getD]
    cases (splitInclusive skeleton)[k]? <;> simp

/-- A skeleton is its lines put together. -/
theorem join_rawLine (skeleton : Text) : join (lines skeleton).length (rawLine skeleton) = skeleton := by
  rw [← flatten_take_splitInclusive, length_lines, List.take_length, flatten_splitInclusive]

/-- Where a skeleton line sits. -/
theorem start_lines (skeleton : Text) (i : Fin (lines skeleton).length) :
    ((lines skeleton).get i).start = (join i (rawLine skeleton)).length ∧
      ((lines skeleton).get i).stop = (join (i + 1) (rawLine skeleton)).length := by
  have hlt : i.val < (splitInclusive skeleton).length := length_lines skeleton ▸ i.isLt
  rw [List.get_eq_getElem, getElem_lines skeleton i hlt, ← flatten_take_splitInclusive, ← flatten_take_splitInclusive]
  exact ⟨rfl, rfl⟩

/-- A laid body has an anchor where its piece begins. -/
theorem Laid.start_row (h : Laid sk piece) {i : Fin sk.length} (hanchor : isAnchor (sk.get i).text = true) :
    ((lines (join sk.length piece)).get (h.row i hanchor)).start = (join i piece).length := by
  have hlt : rowIndex piece i < (splitInclusive (join sk.length piece)).length :=
    PullRequest.length_lines _ ▸ h.rowIndex_lt hanchor
  simp only [List.get_eq_getElem, Laid.row]
  rw [PullRequest.getElem_lines _ _ hlt]
  simp only
  rw [h.splitInclusive_eq, take_rowsOf i.isLt.le, flatten_rowsOf]

/-- The row of an anchor whose piece is one line ends where the piece does. -/
theorem Laid.stop_row (h : Laid sk piece) {i : Fin sk.length} (hanchor : isAnchor (sk.get i).text = true)
    (hone : (splitInclusive (piece i)).length = 1) :
    ((lines (join sk.length piece)).get (h.row i hanchor)).stop = (join (i + 1) piece).length := by
  have hlt : rowIndex piece i < (splitInclusive (join sk.length piece)).length :=
    PullRequest.length_lines _ ▸ h.rowIndex_lt hanchor
  have hnext : rowIndex piece i + 1 = rowIndex piece (i + 1) := by rw [rowIndex_succ, hone]
  simp only [List.get_eq_getElem, Laid.row]
  rw [PullRequest.getElem_lines _ _ hlt]
  simp only
  rw [h.splitInclusive_eq, hnext, take_rowsOf (Nat.succ_le_of_lt i.isLt), flatten_rowsOf]

/-- What stands before the first element that a search finds in an ordered list does not pass it. -/
theorem not_of_find?_eq_some {A : Type*} {order : A → A → Prop} (hasymm : ∀ a b, order a b → ¬ order b a)
    {list : List A} (hordered : list.Pairwise order) {p : A → Bool} {a found : A} (h : list.find? p = some found)
    (hmem : a ∈ list) (hbefore : order a found) : p a = false := by
  induction list with
  | nil => cases hmem
  | cons first rest ih =>
    obtain ⟨hfirst, hrest⟩ := List.pairwise_cons.mp hordered
    rw [List.find?_cons] at h
    split at h
    · cases h
      rcases List.mem_cons.mp hmem with rfl | hin
      · exact absurd hbefore (hasymm a a hbefore)
      · exact absurd hbefore (hasymm found a (hfirst a hin))
    · rename_i hpass
      rcases List.mem_cons.mp hmem with rfl | hin
      · exact Bool.not_eq_true _ ▸ hpass
      · exact ih hrest h hin

/-- A search for an anchor finds one. -/
theorem isAnchor_of_find? {list : List (Fin sk.length)} {i : Fin sk.length}
    (h : list.find? (fun i => isAnchor (sk.get i).text) = some i) : isAnchor (sk.get i).text = true := by
  have hpass := List.find?_some h
  exact hpass

/-- What bounds a skeleton line are the last anchor up to it and the first one after it. -/
theorem bounds_eq_ok {place before after : Fin sk.length} {name : Text}
    (h : bounds sk place name = .ok (before, after)) :
    (isAnchor (sk.get before).text = true ∧ before ≤ place) ∧ (isAnchor (sk.get after).text = true ∧ place < after) ∧
      ∀ k, before < k → k < after → isAnchor (sk.get k).text = false := by
  rw [bounds] at h
  split at h
  · cases h
  · rename_i first hfirst
    split at h
    · cases h
    · rename_i last hlast
      cases h
      have hbefore := List.mem_of_find?_eq_some hfirst
      have hafter := List.mem_of_find?_eq_some hlast
      simp only [List.mem_reverse, List.mem_filter, List.mem_finRange, true_and, decide_eq_true_eq] at hbefore hafter
      have hrising := List.pairwise_lt_finRange sk.length
      have hfirstAnchor := isAnchor_of_find? hfirst
      have hlastAnchor := isAnchor_of_find? hlast
      refine ⟨⟨hfirstAnchor, hbefore⟩, ⟨hlastAnchor, hafter⟩, fun k hlow hhigh => ?_⟩
      rcases le_or_gt k place with hup | hpast
      · exact not_of_find?_eq_some (fun _ _ => lt_asymm) (List.pairwise_reverse.mpr (hrising.filter _)) hfirst
          (by simpa using hup) hlow
      · exact not_of_find?_eq_some (fun _ _ => lt_asymm) (hrising.filter _) hlast (by simpa using hpast) hhigh

end Places

section Splice

variable {skeleton name : Text} {others : List Text} {shown : Shown} {piece new : ℕ → Text}

/-- A render that is the skeleton outside a span gives the span's text. -/
theorem renderedSpan_override {raw : ℕ → Text} {first stop n : ℕ} (hfirst : first ≤ stop) (hstop : stop ≤ n) :
    renderedSpan (join n raw) (join n (override raw new first stop)) (join first raw).length (join stop raw).length =
      some (between first stop new) := by
  have htake : (join n raw).take (join first raw).length = join first raw := by
    rw [join_eq_append (hfirst.trans hstop)]
    exact List.take_left
  have hdrop : (join n raw).drop (join stop raw).length = between stop n raw := by
    rw [join_eq_append hstop]
    exact List.drop_left
  have hprefix : (join n (override raw new first stop)).dropPrefix? (join first raw) =
      some (between first stop new ++ between stop n raw) :=
    List.dropPrefix?_eq_some_iff.mpr ⟨_, join_override hfirst hstop, beq_self_eq_true _⟩
  have hsuffix : (between first stop new ++ between stop n raw).dropSuffix? (between stop n raw) =
      some (between first stop new) :=
    List.dropSuffix?_eq_some_iff.mpr ⟨_, rfl, beq_self_eq_true _⟩
  rw [renderedSpan, htake, hdrop, hprefix, Option.bind_some, hsuffix]

/-- A replaced span is that of the pieces. -/
theorem replaceSpan_override {raw : ℕ → Text} {first stop n : ℕ} (hfirst : first ≤ stop) (hstop : stop ≤ n) :
    replaceSpan (join n raw) (join n (override raw new first stop)) (join n piece) name (join first piece).length
      (join stop piece).length (join first raw).length (join stop raw).length =
      .ok (join n (override piece new first stop)) := by
  have htake : (join n piece).take (join first piece).length = join first piece := by
    rw [join_eq_append (hfirst.trans hstop)]
    exact List.take_left
  have hdrop : (join n piece).drop (join stop piece).length = between stop n piece := by
    rw [join_eq_append hstop]
    exact List.drop_left
  rw [replaceSpan, renderedSpan_override hfirst hstop]
  simp only
  rw [htake, hdrop, join_override hfirst hstop, List.append_assoc]

/-- Splicing a laid body replaces the pieces of the section's span by the render's, and no other. -/
theorem spliceBetween_laid (hlaid : Laid (lines skeleton) piece) {before after : Fin (lines skeleton).length}
    (hbefore : isAnchor ((lines skeleton).get before).text = true) (hafter : isAnchor ((lines skeleton).get after).text = true)
    (hlt : before < after)
    (hone : opensWithValues ((lines skeleton).get before).text = false → (splitInclusive (piece before)).length = 1) :
    spliceBetween skeleton
        (join (lines skeleton).length
          (override (rawLine skeleton) new (firstLine (lines skeleton) before) after))
        (join (lines skeleton).length piece) name others shown (lines skeleton)
        (lines (join (lines skeleton).length piece)) before after =
      .ok (join (lines skeleton).length (override piece new (firstLine (lines skeleton) before) after)) := by
  have hfound := hlaid.rowOf_eq hbefore
  have hfound' := hlaid.rowOf_eq hafter
  have hagree : [before, after].find? (fun i =>
      rowOf (earliest (lines skeleton) (lines (join (lines skeleton).length piece))) i ≠
        rowOf (latest (lines skeleton) (lines (join (lines skeleton).length piece))) i) = none := by
    simp [hfound.1, hfound.2, hfound'.1, hfound'.2]
  have hfirst : firstLine (lines skeleton) before ≤ after := by
    rw [firstLine]
    split
    · exact Fin.le_def.mp hlt.le
    · exact Nat.succ_le_of_lt hlt
  have hreplace := @replaceSpan_override name piece new (rawLine skeleton) _ _ _ hfirst after.isLt.le
  rw [join_rawLine] at hreplace
  simp only [spliceBetween, hagree, hfound.1, hfound'.1]
  rw [hlaid.start_row hafter, (start_lines skeleton after).1]
  cases hvalues : opensWithValues ((lines skeleton).get before).text with
  | true =>
    have hopens : firstLine (lines skeleton) before = before := by
      rw [firstLine, if_pos hvalues, Nat.add_zero]
    rw [hopens] at hreplace ⊢
    rw [if_pos rfl, hlaid.start_row hbefore, (start_lines skeleton before).1]
    exact hreplace
  | false =>
    have hopens : firstLine (lines skeleton) before = before + 1 := by
      rw [firstLine, if_neg (by rw [hvalues]; exact Bool.false_ne_true)]
    rw [hopens] at hreplace ⊢
    rw [if_neg Bool.false_ne_true, hlaid.stop_row hbefore (hone hvalues), (start_lines skeleton before).2]
    exact hreplace

/-- Splicing a laid body replaces the pieces of the section's span by the render's, and no other. -/
theorem splice_laid (hlaid : Laid (lines skeleton) piece) {place before after : Fin (lines skeleton).length}
    (hplace : slotLine (lines skeleton) (slot name) name = .ok place)
    (hbounds : bounds (lines skeleton) place name = .ok (before, after))
    (hone : opensWithValues ((lines skeleton).get before).text = false → (splitInclusive (piece before)).length = 1) :
    splice skeleton
        (join (lines skeleton).length (override (rawLine skeleton) new (firstLine (lines skeleton) before) after))
        (join (lines skeleton).length piece) name others shown =
      .ok (join (lines skeleton).length (override piece new (firstLine (lines skeleton) before) after)) := by
  obtain ⟨⟨hbefore, hle⟩, ⟨hafter, hlt⟩, _⟩ := bounds_eq_ok hbounds
  rw [splice, hplace]
  change (bounds (lines skeleton) place name >>= _) = _
  rw [hbounds]
  exact spliceBetween_laid hlaid hbefore hafter (lt_of_le_of_lt hle hlt) hone

end Splice

section Edit

/-- A section of an edit: its variables, the template rendered with their values, and how much of the section they
render. -/
structure SectionEdit where
  name : Text
  others : List Text
  rendered : Text
  shown : Shown

/-- The body of an edit: its sections spliced one after another. -/
def spliceAll (skeleton : Text) : List SectionEdit → Text → Except String Text
  | [], body => .ok body
  | edit :: rest, body => do
    spliceAll skeleton rest (← splice skeleton edit.rendered body edit.name edit.others edit.shown)

/-- A section that the template places, rendered inside its own span by lines that may stand in a body. -/
structure PlacedEdit (skeleton : Text) where
  edit : SectionEdit
  place : Fin (lines skeleton).length
  before : Fin (lines skeleton).length
  after : Fin (lines skeleton).length
  new : ℕ → Text
  slotted : slotLine (lines skeleton) (slot edit.name) edit.name = .ok place
  bounded : bounds (lines skeleton) place edit.name = .ok (before, after)
  renders : edit.rendered =
    join (lines skeleton).length (override (rawLine skeleton) new (firstLine (lines skeleton) before) after)
  laid : ∀ i : Fin (lines skeleton).length, firstLine (lines skeleton) before ≤ i → i < after →
    LaidPiece (lines skeleton) i (new i)

/-- The pieces with those of the section's span replaced. -/
def PlacedEdit.apply {skeleton : Text} (placed : PlacedEdit skeleton) (piece : ℕ → Text) : ℕ → Text :=
  override piece placed.new (firstLine (lines skeleton) placed.before) placed.after

variable {skeleton : Text} {piece : ℕ → Text}

/-- A placed section may stand in a body. -/
theorem PlacedEdit.apply_laid (placed : PlacedEdit skeleton) (h : Laid (lines skeleton) piece) :
    Laid (lines skeleton) (placed.apply piece) := by
  intro i
  rw [PlacedEdit.apply, override]
  split
  · rename_i hspan
    exact placed.laid i hspan.1 (Fin.lt_def.mpr hspan.2)
  · exact h i

/-- A placed section replaces no template line without values. -/
theorem PlacedEdit.apply_eq (placed : PlacedEdit skeleton) {i : Fin (lines skeleton).length}
    (hanchor : isAnchor ((lines skeleton).get i).text = true) (hplain : opensWithValues ((lines skeleton).get i).text = false) :
    placed.apply piece i = piece i := by
  obtain ⟨_, _, hnone⟩ := bounds_eq_ok placed.bounded
  apply if_neg
  rintro ⟨hfirst, hlast⟩
  rcases lt_trichotomy placed.before i with hlt | heq | hgt
  · rw [hnone i hlt (Fin.lt_def.mpr hlast)] at hanchor
    cases hanchor
  · rw [firstLine, heq, if_neg (by rw [hplain]; exact Bool.false_ne_true)] at hfirst
    omega
  · have hle : (placed.before : ℕ) ≤ firstLine (lines skeleton) placed.before := Nat.le_add_right _ _
    have hgt' := Fin.lt_def.mp hgt
    omega

section Example

/-- A template of two sections. -/
def sampleSkeleton : Text := "# T\n## A\n@@devkit-slot:a@@\n## B\n@@devkit-slot:b@@\n## End\n".toList

/-- A body of that template, with what a bot added to it. -/
def samplePiece (k : ℕ) : Text :=
  (["# T\nbot\n", "## A\n", "old a\nmore\n", "## B\n", "old b\n", "## End\nbot\n"].getD k "").toList

/-- New values for the two sections. -/
def sampleNew (_ : ℕ) : Text := "new\ntext\n".toList

/-- The edit of the first section. -/
def sampleEdit : PlacedEdit sampleSkeleton where
  edit := ⟨"a".toList, [], "# T\n## A\nnew\ntext\n## B\n@@devkit-slot:b@@\n## End\n".toList, .whole⟩
  place := ⟨2, by decide +kernel⟩
  before := ⟨1, by decide +kernel⟩
  after := ⟨3, by decide +kernel⟩
  new := sampleNew
  slotted := by decide +kernel
  bounded := by decide +kernel
  renders := by decide +kernel
  laid := by decide +kernel

end Example

end Edit

end Devkit.PullRequest
