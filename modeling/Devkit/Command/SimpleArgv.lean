import Devkit.Command.GlobBound
import Mathlib.Algebra.GroupWithZero.Nat
import Mathlib.Data.List.DropRight

/-!
# One plain command

A text is read as one plain command by the syntax tree of a shell grammar. The parser is not part of the repository:
it is what it answers, a tree whose nodes lie one after another within their parents. So the words of the command
have no more characters than the text.
-/

namespace Devkit.Command

/-- A named node of a syntax tree; it stands between two places of the text, counted in characters. -/
inductive Node
  | mk (kind : String) (start stop : ℕ) (hasError : Bool) (children : List Node)

namespace Node

/-- What the node is. -/
def kind : Node → String
  | mk kind _ _ _ _ => kind

/-- Where the node starts. -/
def start : Node → ℕ
  | mk _ start _ _ _ => start

/-- Where the node stops. -/
def stop : Node → ℕ
  | mk _ _ stop _ _ => stop

/-- Whether the text of the node has a syntax error. -/
def hasError : Node → Bool
  | mk _ _ _ hasError _ => hasError

/-- The named nodes right below. -/
def children : Node → List Node
  | mk _ _ _ _ children => children

mutual

/-- The node stands between two places, and the nodes below it within it. -/
def Within (low high : ℕ) : Node → Prop
  | mk _ start stop _ children => low ≤ start ∧ start ≤ stop ∧ stop ≤ high ∧ InOrder start stop children

/-- The nodes stand one after another between two places. -/
def InOrder (low high : ℕ) : List Node → Prop
  | [] => True
  | node :: nodes => node.Within low high ∧ InOrder node.stop high nodes

end

end Node

/-- A shell grammar: the syntax tree of a text, when the parser gives one. -/
structure Grammar where
  parse : List Char → Option Node
  within : ∀ source root, parse source = some root → root.Within 0 source.length

instance inhabitedGrammar : Inhabited Grammar := ⟨⟨fun _ => none, fun _ _ h => (Option.some_ne_none _ h.symm).elim⟩⟩

/-- The text between two places. -/
def slice (source : List Char) (start stop : ℕ) : List Char := (source.drop start).take (stop - start)

/-- A text within double quotes without the backslashes that escape there. -/
def unescapeDquoted : List Char → List Char
  | '\\' :: '\n' :: text => unescapeDquoted text
  | '\\' :: c :: text =>
    if c = '$' ∨ c = '\x60' ∨ c = '"' ∨ c = '\\' then c :: unescapeDquoted text else '\\' :: unescapeDquoted (c :: text)
  | c :: text => c :: unescapeDquoted text
  | [] => []

mutual

/-- The word of a node, when it is plain. -/
def simpleArgvWord (source : List Char) : Node → Option (List Char)
  | .mk kind start stop _ children =>
    let text := slice source start stop
    if kind = "command_name" ∨ kind = "word" then
      if hasUnescaped ['\x7b', '\x7d'] false text then none else some (unescape text)
    else if kind = "raw_string" then some ((text.dropWhile (· == '\'')).rdropWhile (· == '\''))
    else if kind = "string_content" then some (unescapeDquoted text)
    else if kind = "string" then stringWord source (start + 1) stop children
    else if kind = "concatenation" then concatWord source children
    else none

/-- What is left of a quoted string, from a place on. -/
def stringWord (source : List Char) (last stop : ℕ) : List Node → Option (List Char)
  | [] => some (unescapeDquoted (slice source last (max (stop - 1) last)))
  | part :: parts => do
    let word ← simpleArgvWord source part
    let rest ← stringWord source part.stop stop parts
    some (unescapeDquoted (slice source last part.start) ++ (word ++ rest))

/-- The words of some nodes, put together. -/
def concatWord (source : List Char) : List Node → Option (List Char)
  | [] => some []
  | part :: parts => do
    let word ← simpleArgvWord source part
    let rest ← concatWord source parts
    some (word ++ rest)

end

/-- The words of one plain command with every word known, as the text spells them. -/
def simpleArgv (grammar : Grammar) (source : List Char) : Option (List (List Char)) := do
  let root ← grammar.parse source
  match root.children with
  | [command] =>
    if command.kind ≠ "command" ∨ command.hasError then none
    else
      command.children.mapM fun node => (simpleArgvWord source node).filter fun word =>
        !word.any fun c => c == '$' || c == '*' || c == '?' || c == '\x60'
  | _ => none

section Lengths

variable {source : List Char}

theorem length_slice_le (source : List Char) (start stop : ℕ) : (slice source start stop).length ≤ stop - start := by
  rw [slice]
  exact List.length_take_le _ _

theorem length_unescape_le (text : List Char) : (unescape text).length ≤ text.length := by
  fun_induction unescape text with
  | case1 => exact Nat.le_refl _
  | case2 => exact Nat.zero_le _
  | case3 quoted rest ih =>
    simp only [List.length_cons]
    omega
  | case4 c rest hplain ih => exact Nat.succ_le_succ ih

theorem length_unescapeDquoted_le (text : List Char) : (unescapeDquoted text).length ≤ text.length := by
  fun_induction unescapeDquoted text with
  | case1 text ih =>
    simp only [List.length_cons]
    omega
  | case2 c text hnewline hescape ih =>
    simp only [List.length_cons]
    omega
  | case3 c text hnewline hescape ih => exact Nat.succ_le_succ ih
  | case4 c text hnewline hescape ih => exact Nat.succ_le_succ ih
  | case5 => exact Nat.le_refl _

/-- Between quotes stripped from its ends a text is no longer. -/
theorem length_trim_le (text : List Char) (p : Char → Bool) :
    ((text.dropWhile p).rdropWhile p).length ≤ text.length :=
  Nat.le_trans (List.rdropWhile_prefix p _).length_le (List.length_dropWhile_le p text)

mutual

/-- The word of a node is no longer than the node. -/
theorem length_simpleArgvWord_le {low high : ℕ} {word : List Char} :
    (node : Node) → node.Within low high → simpleArgvWord source node = some word →
      word.length ≤ node.stop - node.start
  | .mk kind start stop error children, hwithin, hword => by
    obtain ⟨_, hle, _, horder⟩ := hwithin
    have hslice := length_slice_le source start stop
    simp only [simpleArgvWord] at hword
    simp only [Node.start, Node.stop]
    split at hword
    · split at hword
      · cases hword
      · cases hword
        exact Nat.le_trans (length_unescape_le _) hslice
    · split at hword
      · cases hword
        exact Nat.le_trans (length_trim_le _ _) hslice
      · split at hword
        · cases hword
          exact Nat.le_trans (length_unescapeDquoted_le _) hslice
        · split at hword
          · exact length_stringWord_le children horder (Nat.le_succ start) hword
          · split at hword
            · exact length_concatWord_le children horder hword
            · cases hword

/-- What is left of a quoted string is no longer than what is left of its node. -/
theorem length_stringWord_le {low last stop : ℕ} {word : List Char} :
    (parts : List Node) → Node.InOrder low stop parts → low ≤ last → stringWord source last stop parts = some word →
      word.length ≤ stop - low
  | [], _, hlast, hword => by
    have hslice := length_slice_le source last (max (stop - 1) last)
    cases hword
    have hplain := length_unescapeDquoted_le (slice source last (max (stop - 1) last))
    omega
  | part :: parts, horder, hlast, hword => by
    obtain ⟨hwithin, hrest⟩ := horder
    have hinside : low ≤ part.start ∧ part.start ≤ part.stop ∧ part.stop ≤ stop := by
      cases part
      exact ⟨hwithin.1, hwithin.2.1, hwithin.2.2.1⟩
    rw [stringWord] at hword
    obtain ⟨first, hfirst, hword⟩ := Option.bind_eq_some_iff.mp hword
    obtain ⟨rest, hmore, hword⟩ := Option.bind_eq_some_iff.mp hword
    cases hword
    have hpart := length_simpleArgvWord_le part hwithin hfirst
    have hleft := length_stringWord_le parts hrest (Nat.le_refl part.stop) hmore
    have hslice := length_slice_le source last part.start
    have hplain := length_unescapeDquoted_le (slice source last part.start)
    rw [List.length_append, List.length_append]
    omega

/-- Words put together are no longer than what their nodes stand in. -/
theorem length_concatWord_le {low high : ℕ} {word : List Char} :
    (parts : List Node) → Node.InOrder low high parts → concatWord source parts = some word →
      word.length ≤ high - low
  | [], _, hword => by
    cases hword
    exact Nat.zero_le _
  | part :: parts, horder, hword => by
    obtain ⟨hwithin, hrest⟩ := horder
    have hinside : low ≤ part.start ∧ part.start ≤ part.stop ∧ part.stop ≤ high := by
      cases part
      exact ⟨hwithin.1, hwithin.2.1, hwithin.2.2.1⟩
    rw [concatWord] at hword
    obtain ⟨first, hfirst, hword⟩ := Option.bind_eq_some_iff.mp hword
    obtain ⟨rest, hmore, hword⟩ := Option.bind_eq_some_iff.mp hword
    cases hword
    have hpart := length_simpleArgvWord_le part hwithin hfirst
    have hleft := length_concatWord_le parts hrest hmore
    rw [List.length_append]
    omega

end

/-- The words of nodes in order are together no longer than what the nodes stand in. -/
theorem sum_length_mapM_le {low high : ℕ} {nodes : List Node} {words : List (List Char)} {p : List Char → Bool}
    (horder : Node.InOrder low high nodes)
    (hwords : (nodes.mapM fun node => (simpleArgvWord source node).filter p) = some words) :
    (words.map List.length).sum ≤ high - low := by
  induction nodes generalizing low words with
  | nil =>
    cases hwords
    exact Nat.zero_le _
  | cons node nodes ih =>
    obtain ⟨hwithin, hrest⟩ := horder
    have hinside : low ≤ node.start ∧ node.start ≤ node.stop ∧ node.stop ≤ high := by
      cases node
      exact ⟨hwithin.1, hwithin.2.1, hwithin.2.2.1⟩
    rw [List.mapM_cons] at hwords
    obtain ⟨first, hfirst, hwords⟩ := Option.bind_eq_some_iff.mp hwords
    obtain ⟨rest, hmore, hwords⟩ := Option.bind_eq_some_iff.mp hwords
    cases hwords
    have hnode := length_simpleArgvWord_le node hwithin (Option.filter_eq_some_iff.mp hfirst).1
    have hleft := ih hrest hmore
    rw [List.map_cons, List.sum_cons]
    omega

/-- The words of a plain command have together no more characters than its text. -/
theorem sum_length_simpleArgv_le {grammar : Grammar} {words : List (List Char)}
    (h : simpleArgv grammar source = some words) : (words.map List.length).sum ≤ source.length := by
  obtain ⟨root, hroot, h⟩ := Option.bind_eq_some_iff.mp h
  have hwithin := grammar.within source root hroot
  split at h
  · rename_i command hchildren
    split at h
    · cases h
    · cases root
      cases command
      obtain ⟨_, _, hstop, horder⟩ := hwithin
      simp only [Node.children] at hchildren h
      rw [hchildren] at horder
      obtain ⟨⟨_, _, hcommand, hnodes⟩, _⟩ := horder
      have hsum := sum_length_mapM_le hnodes h
      omega
  · cases h

end Lengths

end Devkit.Command
