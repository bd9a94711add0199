import Devkit.Library.EndedLines
import Devkit.PullRequest.Align

/-!
# Placing a section in a body

A PR body that bots and people have added to still holds most lines of the template it was rendered from. The
template's own lines, its anchors, are found in the body, and the ones on either side of a variable bound the span
that it shares with every variable inside. Only that span is rewritten. An edit that cannot tell where the span is
says so and rewrites nothing. Places in a text are counted in characters.
-/

namespace Devkit.PullRequest

open Devkit.Library

/-- A text. -/
abbrev Text := List Char

/-- The variable of the PR title. -/
def title : Text := "pr_title".toList

/-- What a variable renders as in a skeleton. -/
def slot (name : Text) : Text := slotOpen ++ name ++ slotClose

/-- The lines of a text, each with the newline that ends it. -/
def splitInclusive (text : Text) : List Text :=
  (cutLines '\n' text).1.map (· ++ ['\n']) ++ if (cutLines '\n' text).2 = [] then [] else [(cutLines '\n' text).2]

/-- Lines and where each sits, the first one at a place. -/
def placedLines : ℕ → List Text → List Line
  | _, [] => []
  | start, raw :: rest => ⟨trimEnd raw, start, start + raw.length⟩ :: placedLines (start + raw.length) rest

/-- The lines of a text and where each sits. -/
def lines (text : Text) : List Line := placedLines 0 (splitInclusive text)

/-- The parts of a text between the places of a part. -/
def splitOnText (part text : Text) : List Text :=
  if _hpart : part = [] then [text]
  else
    match _h : breakOn part text with
    | none => [text]
    | some (before, after) => before :: splitOnText part after
termination_by text.length
decreasing_by
  have htext := congrArg List.length (breakOn_eq_some _h)
  have hpositive := List.length_pos_of_ne_nil _hpart
  simp only [List.length_append] at htext
  omega

/-- Every variable whose slot is on a skeleton line, in order. -/
def slotNames (text : Text) : List Text :=
  (splitOnText slotOpen text).tail.filterMap fun rest => (breakOn slotClose rest).map Prod.fst

/-- Variables as an error lists them. -/
def listed (names : List Text) : String := ", ".intercalate (names.map fun name => s!"`{String.ofList name}`")

/-- The line holds variables an edit can pass. -/
def opensWithValues (text : Text) : Bool := (slotNames text).any (· ≠ title)

/-- The variables an edit can pass on a skeleton line, listed for an error. -/
def valuesOn (text : Text) : String := listed ((slotNames text).filter (· ≠ title))

/-- The variables on a skeleton line, listed for an error, when there is more than one. -/
def sharedLine (text : Text) : Option String :=
  let on := (slotNames text).foldl (fun on name => if on.contains name then on else on ++ [name]) []
  if 1 < on.length then some (listed on) else none

/-- A skeleton line that can be found in a body: one with text before its first slot, or with the title for its only
variable and any text at all. -/
def isAnchor (text : Text) : Bool :=
  let parts := segments text
  !(trim (parts.headD [])).isEmpty || (parts.any (fun part => !(trim part).isEmpty) && !opensWithValues text)

/-- The one skeleton line that holds the marker, with no other variable on it. -/
def slotLine (sk : List Line) (marker name : Text) : Except String (Fin sk.length) :=
  match (List.finRange sk.length).filter fun i => (breakOn marker (sk.get i).text).isSome with
  | [] => .error s!"`{String.ofList name}` is not in the pr_body template"
  | place :: more =>
    if more ≠ [] ∨ 1 < (splitOnText marker (sk.get place).text).length - 1 then
      .error (s!"`{String.ofList name}` renders in more than one place in the pr_body template, so " ++
        "no one place can be replaced alone")
    else
      match sharedLine (sk.get place).text with
      | some shared =>
        .error (s!"`{String.ofList name}` shares its line of the pr_body template, which holds {shared}, " ++
          "so it cannot be replaced alone")
      | none => .ok place

/-- Nothing bounds a variable on one side. -/
def unbounded (name : Text) (side : String) : String :=
  s!"`{String.ofList name}` has no line of the pr_body template {side} it, so its text " ++
    s!"cannot be told from what was added {side} it"

/-- The body lacks the lines around a variable. -/
def lost (name : Text) : String :=
  s!"cannot find where `{String.ofList name}` goes: the body no longer has the pr_body " ++
    "template's lines around it"

/-- The anchors that bound a skeleton line: the line itself when it is one, else the one before it, and the one after
it. -/
def bounds (sk : List Line) (place : Fin sk.length) (name : Text) : Except String (Fin sk.length × Fin sk.length) :=
  match ((List.finRange sk.length).filter (· ≤ place)).reverse.find? fun i => isAnchor (sk.get i).text with
  | none => .error (unbounded name "before")
  | some before =>
    match ((List.finRange sk.length).filter (place < ·)).find? fun i => isAnchor (sk.get i).text with
    | none => .error (unbounded name "after")
    | some after => .ok (before, after)

/-- The first line of the span that an opening line bounds. -/
def firstLine (sk : List Line) (before : Fin sk.length) : ℕ :=
  before + if opensWithValues (sk.get before).text then 0 else 1

/-- How much of a section the values render. -/
inductive Shown
  | whole
  | part (full : Text)
  | hidden

/-- The first line of the section a heading opens, when none of it is in the body: the earliest of the template lines
above it that no variable and no line of the body comes between. -/
def sectionStart (sk : List Line) (matched : Fin sk.length → Bool) (opens : Fin sk.length) :
    List (Fin sk.length) → Fin sk.length
  | [] => opens
  | k :: above =>
    if (sk.get k).text = [] then sectionStart sk matched opens above
    else if slotNames (sk.get k).text ≠ [] || matched k then opens
    else sectionStart sk matched k above

/-- The one line of a render that a skeleton line fits. -/
def onlyFitting (sk : List Line) (full : List Line) (name : Text) (i : Fin sk.length) : Except String Line :=
  match full.filter fun line => fits (sk.get i).text line.text with
  | [line] => .ok line
  | _ =>
    .error (s!"cannot tell where `{String.ofList name}` goes: the pr_body template's line " ++
      s!"`{String.ofList (sk.get i).text}` does not render once")

/-- The text a render has between two template lines, when every variable between them is the section's. -/
def visiblePart (sk : List Line) (opens after : Fin sk.length) (name : Text) (others : List Text) (full : Text) :
    Except String Text := do
  if opensWithValues (sk.get opens).text then
    throw (s!"the body lacks the line that opens `{String.ofList name}`'s section, and the line " ++
      s!"before it holds {valuesOn (sk.get opens).text}, whose value can run on into what the edit replaces")
  let leftOut := (((sk.take after).drop (opens + 1)).flatMap fun line => slotNames line.text).filter
    fun other => !(name :: others).contains other
  if leftOut ≠ [] then
    throw (s!"the body lacks the line that opens `{String.ofList name}`'s section, so the edit " ++
      s!"replaces from the line before it and must also pass {listed leftOut}")
  let start := (← onlyFitting sk (lines full) name opens).stop
  let stop := (← onlyFitting sk (lines full) name after).start
  if stop < start then throw (lost name)
  return (full.take stop).drop start

/-- The row that an anchor is paired with. -/
def rowOf {A B : Type*} [DecidableEq A] (pairs : List (A × B)) (i : A) : Option B :=
  (pairs.find? fun pair => pair.1 = i).map Prod.snd

/-- The anchors of a skeleton. -/
def anchorsOf (sk : List Line) : List (Fin sk.length) := (List.finRange sk.length).filter fun i => isAnchor (sk.get i).text

/-- The skeleton's anchors found in a body, from its start. -/
def earliest (sk body : List Line) : List (Fin sk.length × Fin body.length) :=
  align sk (anchorsOf sk) body (List.finRange body.length)

/-- The skeleton's anchors found in a body, from its end. -/
def latest (sk body : List Line) : List (Fin sk.length × Fin body.length) :=
  align sk (anchorsOf sk).reverse body (List.finRange body.length).reverse

/-- What a render has between two places of the skeleton, when it is the skeleton outside them. -/
def renderedSpan (skeleton rendered : Text) (opens spanEnd : ℕ) : Option Text :=
  (rendered.dropPrefix? (skeleton.take opens)).bind fun rest =>
    rest.dropSuffix? (skeleton.drop spanEnd)

/-- A body with the span between two places replaced by the render's. -/
def replaceSpan (skeleton rendered live name : Text) (start stop opens spanEnd : ℕ) : Except String Text :=
  match renderedSpan skeleton rendered opens spanEnd with
  | none =>
    .error (s!"the pr_body template renders `{String.ofList name}` outside its own section, so " ++
      "that section cannot be replaced alone")
  | some text => .ok (live.take start ++ text ++ live.drop stop)

/-- A body with the span between two anchors replaced, once it is known where the anchors are. -/
def spliceBetween (skeleton rendered live name : Text) (others : List Text) (shown : Shown) (sk body : List Line)
    (before after : Fin sk.length) : Except String Text :=
  let found := rowOf (earliest sk body)
  match [before, after].find? fun i => found i ≠ rowOf (latest sk body) i with
  | some i =>
    .error (s!"cannot tell where `{String.ofList name}` goes: the body has the pr_body template's " ++
      s!"line `{String.ofList (sk.get i).text}` in more than one place that fits")
  | none =>
    let spanEnd := (sk.get after).start
    match found after with
    | none => .error (lost name)
    | some last =>
      let stop := (body.get last).start
      match found before, shown with
      | some row, _ =>
        -- an opening line with values is rendered anew: it fits, so its own text stays
        if opensWithValues (sk.get before).text then
          replaceSpan skeleton rendered live name (body.get row).start stop (sk.get before).start spanEnd
        else replaceSpan skeleton rendered live name (body.get row).stop stop (sk.get before).stop spanEnd
      | none, .hidden => .ok live
      | none, .part full =>
        match ((List.finRange sk.length).filter (· < before)).reverse.findSome? fun k =>
            if isAnchor (sk.get k).text then (found k).map fun row => (k, row) else none with
        | none => .error (lost name)
        | some (opens, row) => do
          let text ← visiblePart sk opens after name others full
          return live.take (body.get row).stop ++ text ++ live.drop stop
      | none, .whole =>
        if (slotNames (sk.get before).text).contains title then
          let first := (List.finRange sk.length).find? fun k => before < k ∧ k < after ∧ (sk.get k).text ≠ []
          replaceSpan skeleton rendered live name stop stop
            (match first with
              | none => spanEnd
              | some k => (sk.get k).start) spanEnd
        else
          let first := sectionStart sk (fun k => (found k).isSome) before
            ((List.finRange sk.length).filter (· < before)).reverse
          replaceSpan skeleton rendered live name stop stop (sk.get first).start spanEnd

/-- A body with the span that a section owns replaced by that span of the render. -/
def splice (skeleton rendered live name : Text) (others : List Text) (shown : Shown) : Except String Text := do
  let sk := lines skeleton
  let place ← slotLine sk (slot name) name
  let (before, after) ← bounds sk place name
  spliceBetween skeleton rendered live name others shown sk (lines live) before after

end Devkit.PullRequest
