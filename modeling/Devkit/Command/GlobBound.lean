import Devkit.Guard.Args
import Devkit.Library.Walks

/-!
# The directory of an unquoted pattern

An unquoted pattern is bounded by the components before the first one that matches anything. The bound is told from
the text alone. What the pattern can expand to is stated apart: a word is read as pieces, each quoted or not, and a
component of the path is a name that the pieces of its component fit.
-/

namespace Devkit.Command

open Devkit.Guard (Value)
open Devkit.Library

/-- The characters that make a pattern. -/
def globChars : List Char := ['*', '?', '[']

/-- Whether one of some characters stands in a text without a backslash before it. -/
def hasUnescaped (chars : List Char) : Bool → List Char → Bool
  | _, [] => false
  | escaped, c :: rest => (!escaped && chars.contains c) || hasUnescaped chars (!escaped && c == '\\') rest

/-- Whether a component matches by a pattern. -/
def isPattern (component : List Char) : Bool := hasUnescaped globChars false component

/-- A text without its backslashes. -/
def unescape : List Char → List Char
  | [] => []
  | c :: rest =>
    if c = '\\' then
      match rest with
      | [] => []
      | quoted :: rest => quoted :: unescape rest
    else c :: unescape rest

/-- A component that can lead to the parent: `..`, or a pattern that starts with a dot. -/
def climbs (component : List Char) : Bool :=
  unescape component == ['.', '.'] || ((unescape component).head? == some '.' && isPattern component)

/-- The directory every match of an unquoted pattern lies under, or the one text it stands for. -/
def globBound (pattern : List Char) : Value :=
  let components := pattern.splitOn '/'
  let before := components.takeWhile fun component => !isPattern component
  match components.dropWhile fun component => !isPattern component with
  | [] => .known (unescape pattern)
  | first :: rest =>
    if (first :: rest).any climbs then .unknown
    else
      let dir := unescape (['/'].intercalate before)
      .within (if dir.isEmpty then if before.isEmpty then ['.'] else ['/'] else dir)

section Words

/-- A character of a word, quoted or not. -/
inductive Piece
  | bare (c : Char)
  | quoted (c : Char)
deriving DecidableEq

/-- The character itself. -/
def Piece.char : Piece → Char
  | .bare c | .quoted c => c

/-- The piece makes a pattern. -/
def Piece.active : Piece → Bool
  | .bare c => globChars.contains c
  | .quoted _ => false

/-- The pieces of an unquoted word: a backslash quotes the next character. -/
def pieces : List Char → List Piece
  | [] => []
  | c :: rest =>
    if c = '\\' then
      match rest with
      | [] => []
      | quoted :: rest => .quoted quoted :: pieces rest
    else .bare c :: pieces rest

/-- The components of a word, which slashes part whether quoted or not. -/
def splitPieces (word : List Piece) : List (List Piece) := word.splitOnP fun piece => piece.char == '/'

/-- A name fits the pieces of a component: `*` stands for any run, `?` for any character, a bracket expression for any
of some characters, which ones being left open, and each piece for itself. None stands for a slash. -/
inductive Fits : List Piece → List Char → Prop
  | nil : Fits [] []
  | self (piece : Piece) {rest : List Piece} {name : List Char} :
    Fits rest name → Fits (piece :: rest) (piece.char :: name)
  | run (text : List Char) {rest : List Piece} {name : List Char} : '/' ∉ text → Fits rest name →
    Fits (.bare '*' :: rest) (text ++ name)
  | one (c : Char) {rest : List Piece} {name : List Char} :
    c ≠ '/' → Fits rest name → Fits (.bare '?' :: rest) (c :: name)
  | bracket (c : Char) (body : List Piece) {rest : List Piece} {name : List Char} : c ≠ '/' → Fits rest name →
    Fits (.bare '[' :: body ++ .bare ']' :: rest) (c :: name)

/-- A component can expand to a name: one that fits, that is not empty, and whose leading dot a dot stands for. -/
structure ExpandsTo (component : List Piece) (name : List Char) : Prop where
  fits : Fits component name
  named : component ≠ [] → name ≠ []
  dot : name.head? = some '.' → component.head?.map Piece.char = some '.'

/-- What an unquoted word can expand to: the names its components can expand to, joined. -/
def Expands (pattern path : List Char) : Prop :=
  ∃ names, List.Forall₂ ExpandsTo (splitPieces (pieces pattern)) names ∧ path = ['/'].intercalate names

end Words

section Cleaning

/-- The move a component of a path makes. -/
def componentMove (component : List Char) : Option (Move (List Char)) :=
  if component = [] ∨ component = ['.'] then none
  else if component = ['.', '.'] then some .up
  else some (.down component)

/-- The place a path names from a working directory, cleaned lexically. -/
def cleaned (cwd : List (List Char)) (path : List Char) : List (List Char) :=
  walk (if path.head? = some '/' then [] else cwd) ((path.splitOn '/').filterMap componentMove)

end Cleaning

section Pieces

/-- A backslash and what it quotes are one piece. -/
theorem pieces_quoted (quoted : Char) (rest : List Char) :
    pieces ('\\' :: quoted :: rest) = .quoted quoted :: pieces rest := rfl

/-- Any other character is a piece of its own. -/
theorem pieces_bare {c : Char} (hc : c ≠ '\\') (rest : List Char) : pieces (c :: rest) = .bare c :: pieces rest := by
  rw [pieces.eq_def]
  exact if_neg hc

/-- A slash parts a word, and any other piece is one more of the first component. -/
theorem splitPieces_cons (piece : Piece) (rest : List Piece) :
    splitPieces (piece :: rest) =
      if (piece.char == '/') = true then [] :: splitPieces rest else (splitPieces rest).modifyHead (List.cons piece) :=
  List.splitOnP_cons_eq_if_modifyHead piece rest

/-- A word has a component. -/
theorem splitPieces_ne_nil (word : List Piece) : splitPieces word ≠ [] := List.splitOnP_ne_nil _ word

/-- Without its quoting a word is the characters of its pieces. -/
theorem unescape_eq (text : List Char) : unescape text = (pieces text).map Piece.char := by
  induction text using unescape.induct with
  | case1 => rfl
  | case2 => rfl
  | case3 quoted rest ih =>
    rw [pieces_quoted, List.map_cons, ← ih]
    rfl
  | case4 c rest hc ih =>
    rw [unescape.eq_def, pieces_bare hc, List.map_cons, ← ih]
    exact if_neg hc

/-- A component matches by a pattern where one of its pieces makes one. -/
theorem isPattern_eq (text : List Char) : isPattern text = (pieces text).any Piece.active := by
  have hbackslash : globChars.contains '\\' = false := by decide
  unfold isPattern
  induction text using unescape.induct with
  | case1 => rfl
  | case2 => rfl
  | case3 quoted rest ih =>
    rw [pieces_quoted, List.any_cons, ← ih, hasUnescaped, hasUnescaped, hbackslash]
    rfl
  | case4 c rest hc ih =>
    rw [pieces_bare hc, List.any_cons, ← ih, hasUnescaped, beq_false_of_ne hc]
    rfl

/-- The components of a word are those of its text. -/
theorem splitPieces_pieces (text : List Char) : splitPieces (pieces text) = (text.splitOn '/').map pieces := by
  have hbackslash : ¬ (('\\' == '/') = true) := by decide
  induction text using unescape.induct with
  | case1 => rfl
  | case2 => rfl
  | case3 quoted rest ih =>
    obtain ⟨first, others, hsplit⟩ := List.exists_cons_of_ne_nil (List.splitOn_ne_nil '/' rest)
    rw [pieces_quoted, splitPieces_cons, ih, List.splitOn_cons_eq_if_modifyHead, if_neg hbackslash,
      List.splitOn_cons_eq_if_modifyHead, hsplit]
    change (if (quoted == '/') = true then _ else _) = _
    by_cases hslash : (quoted == '/') = true
    · rw [if_pos hslash, if_pos hslash]
      rfl
    · rw [if_neg hslash, if_neg hslash]
      rfl
  | case4 c rest hc ih =>
    obtain ⟨first, others, hsplit⟩ := List.exists_cons_of_ne_nil (List.splitOn_ne_nil '/' rest)
    rw [pieces_bare hc, splitPieces_cons, ih, List.splitOn_cons_eq_if_modifyHead, hsplit]
    change (if (c == '/') = true then _ else _) = _
    by_cases hslash : (c == '/') = true
    · rw [if_pos hslash, if_pos hslash]
      rfl
    · rw [if_neg hslash, if_neg hslash, List.modifyHead_cons, List.map_cons, List.map_cons, List.modifyHead_cons,
        pieces_bare hc]

/-- The components of the characters are the characters of the components. -/
theorem splitOn_chars (word : List Piece) :
    (word.map Piece.char).splitOn '/' = (splitPieces word).map fun component => component.map Piece.char := by
  induction word with
  | nil => rfl
  | cons piece rest ih =>
    obtain ⟨first, others, hsplit⟩ := List.exists_cons_of_ne_nil (splitPieces_ne_nil rest)
    rw [List.map_cons, List.splitOn_cons_eq_if_modifyHead, ih, splitPieces_cons, hsplit]
    by_cases hslash : (piece.char == '/') = true
    · rw [if_pos hslash, if_pos hslash]
      rfl
    · rw [if_neg hslash, if_neg hslash]
      rfl

/-- Removing the quoting goes component by component. -/
theorem splitOn_unescape (text : List Char) : (unescape text).splitOn '/' = (text.splitOn '/').map unescape := by
  rw [unescape_eq, splitOn_chars, splitPieces_pieces, List.map_map]
  exact List.map_congr_left fun component _ => (unescape_eq component).symm

/-- No component of a word has a slash. -/
theorem char_ne_of_mem_splitPieces {word component : List Piece} (h : component ∈ splitPieces word) :
    ∀ piece ∈ component, piece.char ≠ '/' := by
  have hpart : component.map Piece.char ∈ (word.map Piece.char).splitOn '/' :=
    splitOn_chars word ▸ List.mem_map_of_mem h
  intro piece hpiece hslash
  exact not_mem_of_mem_splitOn hpart (hslash ▸ List.mem_map_of_mem hpiece)

/-- A word has an active piece where one of its components has. -/
theorem any_active_splitPieces (word : List Piece) :
    ((splitPieces word).any fun component => component.any Piece.active) = word.any Piece.active := by
  induction word with
  | nil => rfl
  | cons piece rest ih =>
    rw [splitPieces_cons, List.any_cons, ← ih]
    split
    · rename_i hslash
      have hplain : piece.active = false := by
        cases piece with
        | bare c =>
          obtain rfl : c = '/' := beq_iff_eq.mp hslash
          rfl
        | quoted c => rfl
      rw [hplain]
      rfl
    · obtain ⟨first, others, hsplit⟩ := List.exists_cons_of_ne_nil (splitPieces_ne_nil rest)
      rw [hsplit, List.modifyHead_cons, List.any_cons, List.any_cons, List.any_cons, Bool.or_assoc]

end Pieces

section Names

/-- A name that fits a component has no slash. -/
theorem Fits.slash_notMem {component : List Piece} {name : List Char} (h : Fits component name)
    (hcomponent : ∀ piece ∈ component, piece.char ≠ '/') : '/' ∉ name := by
  induction h with
  | nil => exact List.not_mem_nil
  | self piece _ ih =>
    obtain ⟨hpiece, hrest⟩ := List.forall_mem_cons.mp hcomponent
    exact List.not_mem_cons_of_ne_of_not_mem hpiece.symm (ih hrest)
  | run text htext _ ih =>
    exact fun hmem => (List.mem_append.mp hmem).elim htext (ih (List.forall_mem_cons.mp hcomponent).2)
  | one c hc _ ih => exact List.not_mem_cons_of_ne_of_not_mem hc.symm (ih (List.forall_mem_cons.mp hcomponent).2)
  | bracket c body hc _ ih =>
    have hrest := (List.forall_mem_append.mp hcomponent).2
    exact List.not_mem_cons_of_ne_of_not_mem hc.symm (ih (List.forall_mem_cons.mp hrest).2)

/-- The name that fits a component without a pattern is its characters. -/
theorem Fits.eq_chars {component : List Piece} {name : List Char} (h : Fits component name)
    (hplain : component.any Piece.active = false) : name = component.map Piece.char := by
  induction h with
  | nil => rfl
  | self piece _ ih =>
    rw [List.any_cons, Bool.or_eq_false_iff] at hplain
    rw [List.map_cons, ← ih hplain.2]
  | run | one | bracket =>
    rw [← Bool.not_eq_true] at hplain
    exact absurd rfl hplain

/-- Every component can stand for its own characters. -/
theorem expandsTo_self (component : List Piece) : ExpandsTo component (component.map Piece.char) := by
  refine ⟨?_, fun h => mt List.map_eq_nil_iff.mp h, fun h => ?_⟩
  · induction component with
    | nil => exact .nil
    | cons piece rest ih => exact .self piece ih
  · rwa [List.head?_map] at h

/-- A word can stand for itself, without its quoting. -/
theorem expands_self (pattern : List Char) : Expands pattern (unescape pattern) := by
  refine ⟨(splitPieces (pieces pattern)).map fun component => component.map Piece.char, ?_, ?_⟩
  · rw [List.forall₂_map_right_iff]
    exact List.forall₂_same.mpr fun component _ => expandsTo_self component
  · rw [← splitOn_chars, List.intercalate_splitOn, unescape_eq]

/-- Where no component climbs, no name is that of the parent. -/
theorem ExpandsTo.ne_parent {component : List Char} {name : List Char} (h : ExpandsTo (pieces component) name)
    (hclimbs : climbs component = false) : name ≠ ['.', '.'] := by
  rintro rfl
  rw [climbs, Bool.or_eq_false_iff, unescape_eq, isPattern_eq] at hclimbs
  obtain ⟨hparent, hdot⟩ := hclimbs
  rw [List.head?_map, h.dot rfl, beq_self_eq_true, Bool.true_and] at hdot
  rw [← h.fits.eq_chars hdot] at hparent
  cases hparent

end Names

section Places

/-- A path cleaned where none of its components is that of the parent is below where it starts. -/
theorem prefix_walk {place : List (List Char)} {names : List (List Char)} (h : ∀ name ∈ names, name ≠ ['.', '.']) :
    place <+: walk place (names.filterMap componentMove) := by
  induction names generalizing place with
  | nil => exact List.prefix_refl place
  | cons name rest ih =>
    obtain ⟨hname, hrest⟩ := List.forall_mem_cons.mp h
    by_cases hstays : name = [] ∨ name = ['.']
    · rw [List.filterMap_cons_none (show componentMove name = none from if_pos hstays)]
      exact ih hrest
    · have hmove : componentMove name = some (.down name) := by rw [componentMove, if_neg hstays, if_neg hname]
      rw [List.filterMap_cons_some hmove]
      exact (List.prefix_append place [name]).trans (ih hrest)

/-- Joined components start as some of them joined do. -/
theorem prefix_intercalate (names others : List (List Char)) :
    ['/'].intercalate names <+: ['/'].intercalate (names ++ others) := by
  induction names with
  | nil => exact List.nil_prefix
  | cons name rest ih =>
    cases rest with
    | nil =>
      rw [List.singleton_append, List.intercalate_singleton]
      cases others with
      | nil => simp
      | cons other others =>
        rw [List.intercalate_cons_cons, List.append_assoc]
        exact List.prefix_append name _
    | cons second rest =>
      rw [List.cons_append, List.cons_append, List.intercalate_cons_cons, List.intercalate_cons_cons,
        ← List.cons_append]
      exact (List.prefix_append_right_inj _).mpr ih

/-- Components that are no patterns expand to themselves without their quoting. -/
theorem names_eq_of_plain {components names : List (List Char)}
    (h : List.Forall₂ (fun component name => ExpandsTo (pieces component) name) components names)
    (hplain : ∀ component ∈ components, isPattern component = false) : names = components.map unescape := by
  induction h with
  | nil => rfl
  | cons hname _ ih =>
    obtain ⟨hfirst, hrest⟩ := List.forall_mem_cons.mp hplain
    rw [isPattern_eq] at hfirst
    rw [List.map_cons, ← ih hrest, hname.fits.eq_chars hfirst, unescape_eq]

/-- A property of all names that components expand to. -/
theorem forall_names {components names : List (List Char)} {holds : List Char → Prop}
    (h : List.Forall₂ (fun component name => ExpandsTo (pieces component) name) components names)
    (hname : ∀ component ∈ components, ∀ name, ExpandsTo (pieces component) name → holds name) :
      ∀ name ∈ names, holds name := by
  induction h with
  | nil => exact fun name hmem => absurd hmem List.not_mem_nil
  | cons hfirst _ ih =>
    obtain ⟨hcomponent, hrest⟩ := List.forall_mem_cons.mp hname
    exact List.forall_mem_cons.mpr ⟨hcomponent _ hfirst, ih hrest⟩

/-- A text without components that start it with a slash is not absolute. -/
theorem head?_intercalate {name : List Char} (hname : name ≠ []) (others : List (List Char)) :
    (['/'].intercalate (name :: others)).head? = name.head? := by
  obtain ⟨c, rest, rfl⟩ := List.exists_cons_of_ne_nil hname
  obtain ⟨behind, heq⟩ := prefix_intercalate [c :: rest] others
  rw [List.intercalate_singleton, List.singleton_append] at heq
  rw [← heq]
  rfl

/-- A bound is told from the components before the first pattern; a path the pattern expands to has them without their
quoting, then names of which the first is not empty and none is that of the parent. -/
theorem exists_names_of_within {pattern dir path : List Char} (hbound : globBound pattern = .within dir)
    (hpath : Expands pattern path) : ∃ before name others,
      dir = (if (unescape (['/'].intercalate before)).isEmpty then if before.isEmpty then ['.'] else ['/']
        else unescape (['/'].intercalate before)) ∧
      (∀ component ∈ before, '/' ∉ component) ∧ path = ['/'].intercalate (before.map unescape ++ name :: others) ∧
      (∀ part ∈ before.map unescape ++ name :: others, '/' ∉ part) ∧ name ≠ [] ∧
      ∀ part ∈ name :: others, part ≠ ['.', '.'] := by
  obtain ⟨names, hnames, rfl⟩ := hpath
  rw [splitPieces_pieces, List.forall₂_map_left_iff] at hnames
  have hslash : ∀ name ∈ names, '/' ∉ name := by
    refine forall_names hnames fun component hcomponent name hname => hname.fits.slash_notMem ?_
    have hmem : pieces component ∈ splitPieces (pieces pattern) := by
      rw [splitPieces_pieces]
      exact List.mem_map_of_mem hcomponent
    exact char_ne_of_mem_splitPieces hmem
  unfold globBound at hbound
  dsimp only at hbound
  split at hbound
  · cases hbound
  rename_i first rest hdrop
  split at hbound
  · cases hbound
  rename_i hclimbs
  have hcomponents := List.takeWhile_append_dropWhile (p := fun component => !isPattern component)
    (l := pattern.splitOn '/')
  have hplain : ∀ component ∈ (pattern.splitOn '/').takeWhile fun component => !isPattern component,
      isPattern component = false := fun component hmem => by simpa using List.mem_takeWhile_imp hmem
  have hpattern : isPattern first = true := by
    have hhead := List.head?_dropWhile_not (fun component => !isPattern component) (pattern.splitOn '/')
    rw [hdrop] at hhead
    simpa using hhead
  rw [hdrop] at hcomponents
  generalize (pattern.splitOn '/').takeWhile (fun component => !isPattern component) = before at *
  have hunsplit : ∀ component ∈ before, '/' ∉ component := fun component hmem =>
    not_mem_of_mem_splitOn (hcomponents ▸ List.mem_append_left _ hmem)
  rw [← hcomponents] at hnames
  -- the names before the first pattern are those of the bound
  have hfront : names.take before.length = before.map unescape := by
    have htake := List.forall₂_take before.length hnames
    rw [List.take_left] at htake
    exact names_eq_of_plain htake hplain
  have htail := List.forall₂_drop before.length hnames
  rw [List.drop_left] at htail
  have hstays : ∀ name ∈ names.drop before.length, name ≠ ['.', '.'] := by
    refine forall_names htail fun component hmem name hname => hname.ne_parent ?_
    exact Bool.eq_false_iff.mpr fun hclimb => hclimbs (List.any_eq_true.mpr ⟨component, hmem, hclimb⟩)
  obtain ⟨name, others, htails, hname⟩ : ∃ name others, names.drop before.length = name :: others ∧ name ≠ [] := by
    generalize names.drop before.length = tail at htail
    cases htail with
    | cons hfirst _ =>
      refine ⟨_, _, rfl, hfirst.named fun hnil => ?_⟩
      rw [isPattern_eq, hnil] at hpattern
      cases hpattern
  have hjoined : names = before.map unescape ++ name :: others := by
    rw [← htails, ← hfront, List.take_append_drop]
  rw [htails] at hstays
  rw [hjoined] at hslash ⊢
  exact ⟨before, name, others, (Value.within.inj hbound).symm, hunsplit, rfl, hslash, hname, hstays⟩

/-- Every path a pattern expands to is at or below its bound. -/
theorem cleaned_prefix_of_within {pattern dir path : List Char} (hbound : globBound pattern = .within dir)
    (hpath : Expands pattern path) (cwd : List (List Char)) : cleaned cwd dir <+: cleaned cwd path := by
  obtain ⟨before, name, others, rfl, hunsplit, rfl, hslash, hname, hstays⟩ := exists_names_of_within hbound hpath
  have hpath : cleaned cwd (['/'].intercalate (before.map unescape ++ name :: others)) =
      walk (walk (if (['/'].intercalate (before.map unescape ++ name :: others)).head? = some '/' then [] else cwd)
        ((before.map unescape).filterMap componentMove)) ((name :: others).filterMap componentMove) := by
    rw [cleaned, List.splitOn_intercalate '/' hslash (List.append_ne_nil_of_right_ne_nil _ (List.cons_ne_nil _ _)),
      List.filterMap_append, walk_append]
  rw [hpath]
  refine List.IsPrefix.trans ?_ (prefix_walk hstays)
  cases before with
  | nil =>
    have hrelative : (['/'].intercalate (name :: others)).head? ≠ some '/' := by
      rw [head?_intercalate hname]
      intro hhead
      exact hslash name List.mem_cons_self (List.mem_of_mem_head? hhead)
    change cwd <+: if (['/'].intercalate (name :: others)).head? = some '/' then [] else cwd
    simp [if_neg hrelative]
  | cons first before =>
    have hsplit : (unescape (['/'].intercalate (first :: before))).splitOn '/' = (first :: before).map unescape := by
      rw [splitOn_unescape, List.splitOn_intercalate '/' hunsplit (List.cons_ne_nil _ _)]
    have hstart := prefix_intercalate ((first :: before).map unescape) (name :: others)
    rw [← hsplit, List.intercalate_splitOn, hsplit] at hstart
    generalize unescape (['/'].intercalate (first :: before)) = dir at *
    cases dir with
    | nil => exact List.nil_prefix
    | cons c rest =>
      obtain ⟨behind, hstart⟩ := hstart
      rw [← hstart]
      change walk _ (((c :: rest).splitOn '/').filterMap componentMove) <+: _
      rw [hsplit]
      exact List.prefix_refl _

end Places

/-- A bound holds every path its pattern can expand to, from any working directory; a pattern read as one text has no
active character and is that text without its quoting. -/
theorem globBound_holds (pattern : List Char) :
    (∀ dir, globBound pattern = .within dir → ∀ path, Expands pattern path → ∀ cwd,
      cleaned cwd dir <+: cleaned cwd path) ∧
      ∀ text, globBound pattern = .known text →
        (∀ piece ∈ pieces pattern, piece.active = false) ∧ text = (pieces pattern).map Piece.char := by
  refine ⟨fun dir hbound path hpath cwd => cleaned_prefix_of_within hbound hpath cwd, fun text hbound => ?_⟩
  unfold globBound at hbound
  dsimp only at hbound
  split at hbound
  · rename_i hdrop
    obtain rfl := Value.known.inj hbound
    refine ⟨?_, unescape_eq pattern⟩
    have hplain : (pieces pattern).any Piece.active = false := by
      rw [← any_active_splitPieces, splitPieces_pieces, List.any_map, List.any_eq_false]
      intro component hcomponent
      have hpattern := List.dropWhile_eq_nil_iff.mp hdrop component hcomponent
      rw [Bool.not_eq_true', isPattern_eq] at hpattern
      exact ne_true_of_eq_false hpattern
    exact fun piece hpiece => Bool.eq_false_iff.mpr fun hactive =>
      List.any_eq_false.mp hplain piece hpiece hactive
  · split at hbound <;> cases hbound

section Sample

deriving instance DecidableEq for Devkit.Guard.TempLocation, Devkit.Guard.Value

/-- A file that `src/*.rs` expands to is under `src`. -/
theorem globBound_holds_sample :
    cleaned ["repo".toList] "src".toList <+: cleaned ["repo".toList] "src/a.rs".toList := by
  have hbound : globBound "src/*.rs".toList = .within "src".toList := by decide +kernel
  have hword : splitPieces (pieces "src/*.rs".toList) = [pieces "src".toList, .bare '*' :: pieces ".rs".toList] := by
    decide +kernel
  have hname : ExpandsTo (.bare '*' :: pieces ".rs".toList) (['a'] ++ (pieces ".rs".toList).map Piece.char) :=
    ⟨.run ['a'] (by decide) (expandsTo_self _).fits, fun _ => List.cons_ne_nil _ _, fun h => absurd h (by decide)⟩
  refine (globBound_holds "src/*.rs".toList).1 "src".toList hbound "src/a.rs".toList ?_ ["repo".toList]
  unfold Expands
  rw [hword]
  exact ⟨_, .cons (expandsTo_self _) (.cons hname .nil), by decide +kernel⟩

end Sample

end Devkit.Command
