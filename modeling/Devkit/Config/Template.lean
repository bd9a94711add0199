import Devkit.Library.OrderedMap
import Devkit.Library.Outcomes
import Devkit.Library.Wildcard

/-!
# Todo node templates

A template is dot-separated segments, each of literal text and placeholders. Filling writes the values of the
placeholders into it, and reading takes a node apart again. What a template must satisfy for both to say the same is
checked once, when it is parsed.
-/

namespace Devkit.Config

open Devkit.Library
open Std

/-- The values `{harness}` takes in a node template: each harness whose sessions name a todo node. -/
def harnessPrefixes : List String := ["claude", "codex", "grok"]

/-- The placeholders a template may use. -/
def placeholders : List String := ["repo", "branch", "harness", "session", "agent"]

/-- A piece of a segment: text as it stands, or a placeholder by its name. -/
inductive Part
  | literal (text : List Char)
  | value (name : String)
deriving DecidableEq

/-- A parsed, readable todo node template. -/
structure Template where
  segments : List (List Part)
deriving DecidableEq

/-- Why a template text is refused. -/
inductive TemplateError
  | emptySegment (text : String)
  | unmatchedBrace (text : String)
  | unknownPlaceholder (text name : String)
  | usedTwice (text name : String)
  | moreThanOneOpen (text : String)
  | onlyOpen (text : String)
deriving DecidableEq

/-- Values by the names of their placeholders. -/
abbrev Values := ExtTreeMap String String

/-- Either brace. -/
def isBrace (c : Char) : Bool := c == '\x7b' || c == '\x7d'

/-- The sides of the first place where a character stands. -/
def splitOnce (sep : Char) (text : List Char) : Option (List Char × List Char) :=
  match text.dropWhile (· != sep) with
  | [] => none
  | _ :: after => some (text.takeWhile (· != sep), after)

/-- The placeholder a text starts with, and what follows it. -/
def leadingPlaceholder : List Char → Option (List Char × List Char)
  | '\x7b' :: inner => splitOnce '\x7d' inner
  | _ => none

/-- What follows the first place of a character is a shorter part of the text. -/
theorem subset_of_splitOnce {sep : Char} {text before after : List Char}
    (h : splitOnce sep text = some (before, after)) : after ⊆ text ∧ after.length < text.length := by
  unfold splitOnce at h
  split at h
  · contradiction
  · rename_i c rest hdrop
    obtain ⟨-, rfl⟩ := Prod.mk.inj (Option.some.inj h)
    have hsuffix : c :: rest <:+ text := hdrop ▸ List.dropWhile_suffix (· != sep)
    exact ⟨fun x hx => hsuffix.subset (List.mem_cons_of_mem c hx), hsuffix.length_le⟩

/-- What follows a placeholder is a shorter part of the text. -/
theorem subset_of_leadingPlaceholder {text name after : List Char}
    (h : leadingPlaceholder text = some (name, after)) : after ⊆ text ∧ after.length < text.length := by
  unfold leadingPlaceholder at h
  split at h
  · rename_i inner
    obtain ⟨hsubset, hlength⟩ := subset_of_splitOnce h
    exact ⟨fun x hx => List.mem_cons_of_mem _ (hsubset hx), hlength.trans (Nat.lt_succ_self _)⟩
  · contradiction

/-- Some parts and the literal text after them, if there is any. -/
def pushLiteral (parts : List Part) (literal : List Char) : List Part :=
  if literal.isEmpty then parts else parts ++ [.literal literal]

/-- The parts of one segment, after the ones already found, with the placeholders seen so far in the template and how
many open ones the segment has. -/
def parseParts (text : String) (rest : List Char) (seen : List String) (parts : List Part) (opened : ℕ) :
    Except TemplateError (List String × List Part) :=
  let parts := pushLiteral parts (rest.takeWhile fun c => !isBrace c)
  let braced := rest.dropWhile fun c => !isBrace c
  if braced.isEmpty then .ok (seen, parts)
  else
    match hplaceholder : leadingPlaceholder braced with
    | none => .error (.unmatchedBrace text)
    | some (name, after) =>
      let name := String.ofList name
      if name ∉ placeholders then .error (.unknownPlaceholder text name)
      else if name ∈ seen then .error (.usedTwice text name)
      else
        let now := if name ≠ "harness" then opened + 1 else opened
        if name ≠ "harness" ∧ now > 1 then .error (.moreThanOneOpen text)
        else
          have : after.length < rest.length := (subset_of_leadingPlaceholder hplaceholder).2.trans_le
            (List.dropWhile_suffix fun c => !isBrace c).length_le
          parseParts text after (name :: seen) (parts ++ [.value name]) now
termination_by rest.length

/-- One segment of a template text. -/
def parseSegment (text : String) (state : List String × List (List Part)) (segment : List Char) :
    Except TemplateError (List String × List (List Part)) :=
  if segment.isEmpty then .error (.emptySegment text)
  else do
    let (seen, parts) ← parseParts text segment state.1 [] 0
    .ok (seen, state.2 ++ [parts])

/-- The placeholder of a part, if it is one. -/
def Part.name? : Part → Option String
  | .literal _ => none
  | .value name => some name

/-- The placeholders of some parts, in order. -/
def names (parts : List Part) : List String := parts.filterMap Part.name?

namespace Template

/-- Whether a placeholder is used. -/
def contains (t : Template) (name : String) : Bool := t.segments.flatten.any fun part => part == .value name

/-- Whether a node that the template reads shows that devkit made it. -/
def anchored (t : Template) : Bool :=
  t.segments.flatten.any fun part =>
    match part with
    | .literal _ => true
    | .value name => name == "harness"

/-- A template text as a template. -/
def parse (text : String) : Except TemplateError Template := do
  let (_, segments) ← (text.toList.splitOn '.').foldlM (parseSegment text) ([], [])
  let template : Template := ⟨segments⟩
  if !template.anchored && !template.contains "repo" then .error (.onlyOpen text) else .ok template

end Template

/-- Whether a value may stand for a placeholder. -/
def fits (name value : String) : Bool :=
  !value.isEmpty && !value.toList.any (fun c => c == '.' || c == '/' || c == '\\') &&
    (name != "harness" || harnessPrefixes.contains value)

/-- A part with its value written in. -/
def fillPart (values : Values) : Part → Option (List Char)
  | .literal text => some text
  | .value name => (values[name]?.filter (fits name)).map String.toList

/-- A segment with its values written in. -/
def fillSegment (values : Values) (parts : List Part) : Option (List Char) :=
  (parts.mapM (fillPart values)).map List.flatten

/-- What stands before and after the open placeholder of a segment, for one harness. -/
structure Around where
  before : List Char
  after : List Char
  opened : Option String
  hasHarness : Bool

/-- Text added where the segment has got to. -/
def Around.pushStr (a : Around) (text : List Char) : Around :=
  if a.opened.isSome then { a with after := a.after ++ text } else { a with before := a.before ++ text }

/-- One part of a segment. -/
def Around.push (harness : String) (a : Around) : Part → Around
  | .literal text => a.pushStr text
  | .value name =>
    if name = "harness" then { a.pushStr harness.toList with hasHarness := true } else { a with opened := some name }

/-- The surroundings of the open placeholder. -/
def around (harness : String) (parts : List Part) : Around :=
  parts.foldl (Around.push harness) ⟨[], [], none, false⟩

/-- The values a segment of a node has, were it of one harness, by their distinct names. -/
def readAs (parts : List Part) (node : List Char) (harness : String) : Option (List (String × String)) :=
  let a := around harness parts
  let found : Option (List (String × String)) :=
    match a.opened with
    | some name => do
      let value ← (← node.dropPrefix? a.before).dropSuffix? a.after
      if value.isEmpty || value.any fun c => c == '/' || c == '\\' then none
      else some [(name, String.ofList value)]
    | none => if node ≠ a.before then none else some []
  found.map fun rows => if a.hasHarness then rows ++ [("harness", harness)] else rows

/-- The values a segment of a node has, of the first harness it reads as. -/
def readSegment (parts : List Part) (node : List Char) : Option (List (String × String)) :=
  harnessPrefixes.findSome? (readAs parts node)

namespace Template

/-- The node of some values, where they fill the template. -/
def fill (t : Template) (values : Values) : Option String :=
  (t.segments.mapM (fillSegment values)).map fun segments => String.ofList (['.'].intercalate segments)

/-- The values of a node, where the template reads it. -/
def read (t : Template) (project : String) : Option Values :=
  let nodes := project.toList.splitOn '.'
  if nodes.length ≠ t.segments.length then none
  else
    (t.segments.zip nodes).foldlM
      (fun values (parts, node) => (readSegment parts node).map fun found => values.insertMany found) ∅

end Template

/-- A placeholder that any value may stand for. -/
def Part.isOpen : Part → Bool
  | .literal _ => false
  | .value name => name ≠ "harness"

/-- What parsing makes sure of: the text of no segment has a dot, no segment has two open placeholders, and no
placeholder is used twice. -/
structure Template.WellFormed (t : Template) : Prop where
  nonempty : t.segments ≠ []
  dotless : ∀ parts ∈ t.segments, ∀ text, .literal text ∈ parts → '.' ∉ text
  oneOpen : ∀ parts ∈ t.segments, (parts.filter Part.isOpen).length ≤ 1
  distinct : (names t.segments.flatten).Nodup

/-- The placeholders of two lists of parts. -/
@[simp] theorem names_append (parts rest : List Part) : names (parts ++ rest) = names parts ++ names rest :=
  List.filterMap_append

section Parse

variable {text : String}

/-- What a literal adds to some parts. -/
theorem pushLiteral_eq (parts : List Part) (literal : List Char) :
    ∃ new, pushLiteral parts literal = parts ++ new ∧ names new = [] ∧ new.filter Part.isOpen = [] ∧
      ∀ t, .literal t ∈ new → t = literal := by
  unfold pushLiteral
  split
  · exact ⟨[], by simp [names]⟩
  · exact ⟨[.literal literal], by simp [names, Part.name?, Part.isOpen]⟩

/-- What the parts of one segment add: text of the segment, at most one open placeholder, and new names only. -/
theorem parseParts_ok {rest : List Char} {seen : List String} {parts : List Part} {opened : ℕ}
    {result : List String × List Part} (h : parseParts text rest seen parts opened = .ok result)
    (hopened : opened ≤ 1) (hseen : seen.Nodup) :
    ∃ new, result.2 = parts ++ new ∧ result.1 = (names new).reverse ++ seen ∧ result.1.Nodup ∧
      opened + (new.filter Part.isOpen).length ≤ 1 ∧ ∀ t, .literal t ∈ new → t ⊆ rest := by
  fun_induction parseParts text rest seen parts opened with
  | case1 rest seen parts opened =>
    obtain ⟨new, hnew, hnames, hclosed, htext⟩ := pushLiteral_eq parts (rest.takeWhile fun c => !isBrace c)
    obtain rfl := Except.ok.inj h
    refine ⟨new, hnew, by simp [hnames], hseen, by simpa [hclosed] using hopened, fun t ht => ?_⟩
    rw [htext t ht]
    exact (List.takeWhile_prefix _).subset
  | case2 | case3 | case4 | case5 => contradiction
  | case6 rest seen parts opened pushed braced _ nameText after hplaceholder name _ hfresh now hone _ ih =>
    obtain ⟨new, hnew, hnames, hclosed, htext⟩ := pushLiteral_eq parts (rest.takeWhile fun c => !isBrace c)
    have hnow : now = opened + (([.value name] : List Part).filter Part.isOpen).length := by
      by_cases hharness : name = "harness" <;> simp [now, Part.isOpen, hharness]
    have hle : now ≤ 1 := by
      by_cases hharness : name = "harness"
      · simpa [now, hharness] using hopened
      · exact Nat.not_lt.mp fun hlt => hone ⟨hharness, hlt⟩
    obtain ⟨more, hmore, hseen', hnodup, hopen, hrest⟩ :=
      ih h hle (List.nodup_cons.mpr ⟨hfresh, hseen⟩)
    refine ⟨new ++ .value name :: more, ?_, ?_, hnodup, ?_, fun t ht => ?_⟩
    · rw [hmore, show pushed = parts ++ new from hnew, List.append_assoc, List.append_assoc, List.singleton_append]
    · rw [hseen', names_append, hnames, List.nil_append]
      simp [names, Part.name?]
    · rw [List.filter_append, hclosed, List.nil_append, ← List.singleton_append, List.filter_append,
        List.length_append, ← Nat.add_assoc, ← hnow]
      exact hopen
    · rcases List.mem_append.mp ht with ht | ht
      · rw [htext t ht]
        exact (List.takeWhile_prefix _).subset
      · have hmem : .literal t ∈ more := (List.mem_cons.mp ht).resolve_left Part.noConfusion
        have hafter := (subset_of_leadingPlaceholder hplaceholder).1
        exact fun c hc => (List.dropWhile_suffix _).subset (hafter (hrest t hmem hc))

/-- Segments read one after another are well formed together. -/
theorem foldlM_parseSegment_ok {pieces : List (List Char)} {state result : List String × List (List Part)}
    (h : pieces.foldlM (parseSegment text) state = .ok result) (hseen : state.1.Nodup)
    (hdot : ∀ piece ∈ pieces, '.' ∉ piece) :
    ∃ new, result.2 = state.2 ++ new ∧ new.length = pieces.length ∧
      result.1 = (names new.flatten).reverse ++ state.1 ∧ result.1.Nodup ∧
      ∀ parts ∈ new, (parts.filter Part.isOpen).length ≤ 1 ∧ ∀ t, .literal t ∈ parts → '.' ∉ t := by
  induction pieces generalizing state with
  | nil =>
    cases h
    exact ⟨[], by simp [names, hseen]⟩
  | cons piece rest ih =>
    rw [List.foldlM_cons] at h
    obtain ⟨middle, hpiece, hrest⟩ := bind_eq_ok.mp h
    unfold parseSegment at hpiece
    split at hpiece
    · contradiction
    · obtain ⟨⟨seen, parts⟩, hparts, hmiddle⟩ := bind_eq_ok.mp hpiece
      obtain rfl := Except.ok.inj hmiddle
      obtain ⟨added, hadded, hnames, hnodup, hone, htext⟩ := parseParts_ok hparts (Nat.zero_le 1) hseen
      obtain ⟨new, hnew, hlength, hnames', hnodup', hall⟩ :=
        ih hrest hnodup fun other hother => hdot other (List.mem_cons_of_mem _ hother)
      obtain rfl : parts = added := hadded
      refine ⟨parts :: new, ?_, by simp [hlength], ?_, hnodup', fun other hother => ?_⟩
      · rw [hnew, List.append_assoc, List.singleton_append]
      · rw [hnames', hnames, List.flatten_cons, names_append, List.reverse_append, List.append_assoc]
      · rcases List.mem_cons.mp hother with rfl | hother
        · refine ⟨by omega, fun t ht hmem => ?_⟩
          exact hdot piece List.mem_cons_self (htext t ht hmem)
        · exact hall other hother

/-- A template that parses is well formed. -/
theorem Template.parse_wellFormed {t : Template} (h : Template.parse text = .ok t) : t.WellFormed := by
  obtain ⟨⟨seen, segments⟩, hfold, ht⟩ := bind_eq_ok.mp h
  have hsegments : t = ⟨segments⟩ := by
    dsimp only at ht
    split at ht
    · contradiction
    · exact (Except.ok.inj ht).symm
  obtain ⟨new, hnew, hlength, hnames, hnodup, hall⟩ :=
    foldlM_parseSegment_ok hfold List.nodup_nil fun piece hpiece => not_mem_of_mem_splitOn hpiece
  obtain rfl : segments = new := hnew
  subst hsegments
  refine ⟨fun hnil => ?_, fun parts hparts => (hall parts hparts).2, fun parts hparts => (hall parts hparts).1, ?_⟩
  · rw [show segments = [] from hnil, List.length_nil] at hlength
    exact List.splitOn_ne_nil '.' text.toList (List.length_eq_zero_iff.mp hlength.symm)
  · rw [List.append_nil] at hnames
    rw [hnames] at hnodup
    exact List.nodup_reverse.mp hnodup

end Parse

end Devkit.Config
