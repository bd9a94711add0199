import Devkit.Command.SimpleArgv
import Devkit.Command.Words

/-!
# Unwrapping a command

Wrappers before a command's program are stripped in turn: `env` and its like with their options, `doppler run`, and
`xargs`, which puts in a word for the input it reads. The actions of `find` are commands of their own, and so are
those in source embedded in an action. Each turn leaves less known text than it found and embedded source is deeper, so
the stripping ends. `xargs` is cut behind its options without a look at how many words there are; where the last one
lacks its value that is past the end, a panic, which is no result.
-/

namespace Devkit.Command

open Devkit.Common (stripPrefix)
open Devkit.Hook (Value)
open Devkit.Ticket (splitOnce)

/-- A program that runs another: what it is called by, its flags with a value, its flags with a directory, and how
many words stand between its options and the program. -/
structure Wrapper where
  prefixWords : List String
  valueFlags : List String
  cwdFlags : List String
  positional : ℕ

/-- The wrappers that are stripped. -/
def wrapperTable : List Wrapper :=
  [⟨["nohup"], [], [], 0⟩,
    ⟨["setsid"], [], [], 0⟩,
    ⟨["exec"], ["-a"], [], 0⟩,
    ⟨["time"], ["-f", "-o"], [], 0⟩,
    ⟨["command"], [], [], 0⟩,
    ⟨["builtin"], [], [], 0⟩,
    ⟨["nice"], ["-n", "--adjustment"], [], 0⟩,
    ⟨["stdbuf"], ["-i", "-o", "-e"], [], 0⟩,
    ⟨["sudo"], ["-u", "-g", "-C", "-h", "-p"], ["-D", "--chdir"], 0⟩,
    ⟨["timeout"], ["-k", "--kill-after", "-s", "--signal"], [], 1⟩,
    ⟨["env"], ["-u", "--unset", "-S", "--split-string"], ["-C", "--chdir"], 0⟩,
    ⟨["uv", "run"], ["--with", "--with-requirements", "--with-editable", "--python", "-p", "--project", "--env-file",
      "--group", "--extra", "--package", "--index", "--index-url", "--extra-index-url", "--script"],
      ["--directory"], 0⟩,
    ⟨["uv", "tool", "run"], ["--with", "--from", "--python", "-p"], [], 0⟩,
    ⟨["uvx"], ["--with", "--from", "--python", "-p"], [], 0⟩,
    ⟨["pipx", "run"], ["--spec", "--python"], [], 0⟩,
    ⟨["poetry", "run"], [], ["-C", "--directory"], 0⟩,
    ⟨["pdm", "run"], [], [], 0⟩,
    ⟨["hatch", "run"], [], [], 0⟩,
    ⟨["bun", "run"], ["--cwd"], [], 0⟩,
    ⟨["bun", "x"], [], [], 0⟩,
    ⟨["bunx"], ["-p", "--package"], [], 0⟩,
    ⟨["pnpm", "exec"], ["--filter", "-F"], ["-C", "--dir"], 0⟩,
    ⟨["pnpm", "dlx"], ["--package"], [], 0⟩,
    ⟨["npm", "exec"], ["-p", "--package", "-w", "--workspace"], [], 0⟩,
    ⟨["npx"], ["-p", "--package"], [], 0⟩,
    ⟨["yarn", "dlx"], ["-p", "--package"], [], 0⟩,
    ⟨["mise", "exec"], [], ["-C", "--cd"], 0⟩,
    ⟨["mise", "x"], [], ["-C", "--cd"], 0⟩,
    ⟨["direnv", "exec"], [], [], 1⟩]

/-- Wrappers that run their program on the `PATH` they were given. -/
def pathPreserving : List String :=
  ["nohup", "setsid", "exec", "time", "command", "builtin", "nice", "stdbuf", "timeout", "env"]

/-- The flags of `xargs` that take a value. -/
def xargsValueFlags : List String :=
  ["-I", "-i", "-n", "-P", "-d", "-L", "-a", "-s", "-E", "--max-args", "--max-procs", "--delimiter", "--arg-file"]

/-- The language a command is written in. -/
inductive Language
  | bash
  | powerShell
  | python
  | javaScript
  | typeScript
  | fish
deriving DecidableEq

/-- Where a command stands: in the outer source, and in the source embedded there. -/
structure Location where
  outer : ℕ × ℕ
  embedded : Option (ℕ × ℕ)
deriving DecidableEq

/-- What a command reads. -/
inductive Stdin
  | none
  | source (value : Value) (span : ℕ × ℕ)
deriving DecidableEq

/-- A command as its source language gives it. -/
structure RawInvocation where
  words : List Word
  stdin : Stdin
  cwd : Option String
  path : Option Value
  assignments : List Word
  language : Language
  location : Location
deriving DecidableEq

/-- The source a command is found in. -/
structure Frame where
  depth : ℕ
  scriptArgs : List Value
  base : Option Location
  cwd : Option String
  searchPath : SearchPath
deriving DecidableEq

/-- A command without its wrappers. -/
structure Unwrapped where
  argv : List Word
  wrappers : List (List Word)
  cwd : CwdChange
  searchPath : SearchPath
deriving DecidableEq

/-- The position behind the options from a position on, the words from there, and whether one of them places the
input. -/
def skipOptions (valueFlags : List String) (i : ℕ) (replace : Bool) : List Word → ℕ × Bool
  | [] => (i, replace)
  | word :: rest =>
    match known word.value with
    | none => (i, replace)
    | some text =>
      if !startsWith text "-" then (i, replace)
      else if text = "--" then (i + 1, replace)
      else
        let replace := replace || startsWith text "-I" || startsWith text "-i"
        if valueFlags.contains text then skipOptions valueFlags (i + 2) replace rest.tail
        else skipOptions valueFlags (i + 1) replace rest
termination_by words => words.length
decreasing_by
  all_goals
    rw [List.length_cons]
    first
    | (rw [List.length_tail]; omega)
    | omega

/-- Whether a word is the flag of `doppler` that takes a command as text. -/
def isCommandFlag (word : Word) : Bool :=
  (known word.value).any fun text => text == "--command" || startsWith text "--command="

/-- Whether a word ends the options. -/
def endsOptions (word : Word) : Bool := known word.value == some "--"

/-- The command that the flag at an index gives as text, and how many words there are up to the end of it. -/
def commandText (argv : List Word) (idx : ℕ) : Option (ℕ × String) := do
  let text ← argv[idx]?.bind fun word => known word.value
  match stripPrefix text "--command=" with
  | some value => some (idx + 1, value)
  | none => (argv[idx + 1]?.bind fun word => known word.value).map fun value => (idx + 2, value)

/-- How many words `doppler run` takes and the words of its command. -/
def stripDoppler (grammar : Grammar) (argv : List Word) : Option (ℕ × List Word) :=
  match argv.findIdx? endsOptions with
  | some sep => some (sep + 1, argv.drop (sep + 1))
  | none => do
    let idx ← argv.findIdx? isCommandFlag
    let given ← commandText argv idx
    let inner ← simpleArgv grammar given.2.toList
    some (given.1, inner.map fun word => literal (String.ofList word))

/-- Whether an option of a wrapper changes the `PATH` its program is found on. -/
def changesPath (wrapper flag : String) (inline : Option String) (next : Option Word) (style : PathStyle) : Bool :=
  if wrapper = "env" then
    if flag = "-C" ∨ flag = "--chdir" then false
    else if flag = "-u" ∨ flag = "--unset" then
      (inline.or (next.bind fun word => known word.value)).all fun name => isPathName name style
    else true
  else if wrapper = "command" then flag == "-p"
  else false

/-- What the options of a wrapper are read into: the position, whether `--` ended them, and what they change. -/
structure Reading where
  i : ℕ
  optionsDone : Bool
  cwd : CwdChange
  currentCwd : Option String
  searchPath : SearchPath

/-- Change the directory. -/
def Reading.change (r : Reading) (value : Value) (style : PathStyle) : Reading :=
  { r with
    cwd := changeTo value r.currentCwd style
    currentCwd := (changeTo value r.currentCwd style).apply r.currentCwd }

/-- Read the options of a wrapper, and the assignments of `env`, from the words at the position. -/
def readOptions (style : PathStyle) (wrapper : Wrapper) (first : String) (r : Reading) : List Word → Reading
  | [] => r
  | word :: rest =>
    if first = "env" ∧ isAssignment word then
      readOptions style wrapper first
        { r with i := r.i + 1, searchPath := (pathAssignment word style).elim r.searchPath .set } rest
    else
      match known word.value with
      | none => r
      | some text =>
        if text = "--" ∧ ¬ r.optionsDone then
          readOptions style wrapper first { r with i := r.i + 1, optionsDone := true } rest
        else if r.optionsDone ∨ ¬ startsWith text "-" then r
        else
          let flag := (splitOnce '=' text).elim text Prod.fst
          let inline := (splitOnce '=' text).map Prod.snd
          let r := { r with
            searchPath := if changesPath first flag inline rest.head? style then .set .unknown else r.searchPath }
          if wrapper.cwdFlags.contains flag then
            match inline with
            | some value => readOptions style wrapper first { r.change (.known value) style with i := r.i + 1 } rest
            | none =>
              readOptions style wrapper first
                { r.change (rest.head?.elim .unknown Word.value) style with i := r.i + 2 } rest.tail
          else if wrapper.valueFlags.contains flag && inline.isNone then
            readOptions style wrapper first { r with i := r.i + 2 } rest.tail
          else readOptions style wrapper first { r with i := r.i + 1 } rest
termination_by words => words.length
decreasing_by
  all_goals
    rw [List.length_cons]
    first
    | (rw [List.length_tail]; omega)
    | omega

/-- Skip the options of `find` before its starting points. -/
def skipFindOptions : List Value → List Value
  | [] => []
  | value :: rest =>
    match known value with
    | none => value :: rest
    | some option =>
      if option = "-H" ∨ option = "-P" then skipFindOptions rest
      else if option = "-D" then skipFindOptions rest.tail
      else if startsWith option "-O" then skipFindOptions rest
      else value :: rest
termination_by values => values.length
decreasing_by
  all_goals
    rw [List.length_cons]
    first
    | (rw [List.length_tail]; omega)
    | omega

/-- What `{}` stands for in an action of `find`, from the words after the program. -/
def foundPath (args : List Word) : Value :=
  let values := args.map Word.value
  if values.any fun value => known value == some "-L" || known value == some "-follow" then .unknown
  else
    let starts := (skipFindOptions values).takeWhile fun value =>
      !(known value).any fun text => startsWith text "-" || text == "(" || text == "!"
    match starts with
    | [] => .within "."
    | [.known dir] => .within dir
    | [.within dir] => .within dir
    | _ => .unknown

/-- Whether a text contains another. -/
def contains (text part : String) : Bool := text.toList.tails.any fun rest => part.toList.isPrefixOf rest

/-- A word of an action of `find`, the path found put in. -/
def foundWord (found : Value) (word : Word) : Word :=
  match known word.value with
  | some text =>
    if text = "\x7b\x7d" then { word with value := found }
    else if contains text "\x7b\x7d" then { word with value := .unknown }
    else word
  | none => word

/-- Whether a word starts an action of `find`. -/
def startsAction (word : Word) : Bool :=
  (known word.value).any fun text => ["-exec", "-execdir", "-ok", "-okdir"].contains text

/-- Whether a word ends an action of `find`. -/
def endsAction (word : Word) : Bool := (known word.value).any fun text => text == ";" || text == "+"

/-- The words of the actions of `find`. -/
def findActions (found : Value) : List Word → List (List Word)
  | [] => []
  | word :: rest =>
    if startsAction word then
      (rest.takeWhile fun w => !endsAction w).map (foundWord found) ::
        findActions found (rest.dropWhile fun w => !endsAction w).tail
    else findActions found rest
termination_by words => words.length
decreasing_by
  · have hdrop := List.length_dropWhile_le (fun w => !endsAction w) rest
    rw [List.length_tail, List.length_cons]
    omega
  · rw [List.length_cons]
    omega

/-- What the stripping has come to. -/
structure Stripping where
  argv : List Word
  wrappers : List (List Word)
  cwd : CwdChange
  currentCwd : Option String
  searchPath : SearchPath

/-- The command as it is stripped so far. -/
def Stripping.unwrapped (s : Stripping) : Unwrapped := ⟨s.argv, s.wrappers, s.cwd, s.searchPath⟩

/-- Where the stripping of a command starts. -/
def RawInvocation.stripping (raw : RawInvocation) (frame : Frame) : Stripping :=
  ⟨raw.words, [], .inherit, raw.cwd, raw.path.elim frame.searchPath .set⟩

/-- The `PATH` after the assignments before a program, a later one over an earlier. -/
def assignedPath (style : PathStyle) (searchPath : SearchPath) (assignments : List Word) : SearchPath :=
  assignments.foldl (fun path word => (pathAssignment word style).elim path .set) searchPath

/-- Drop the assignments before the program. -/
def Stripping.dropAssignments (style : PathStyle) (s : Stripping) : Stripping :=
  { s with
    argv := s.argv.dropWhile isAssignment
    searchPath := assignedPath style s.searchPath (s.argv.takeWhile isAssignment) }

/-- The words of `xargs` from behind its options, with the input it reads. -/
def xargsWords (replace : Bool) (argv : List Word) : List Word :=
  let argv := if argv.isEmpty then [literal "echo"] else argv
  if replace then argv.take 1 ++ (argv.drop 1).map fun word => { word with value := .unknown }
  else argv ++ [⟨.unknown, "<input>", (0, 0)⟩]

/-- The words are those of a wrapper, called by its prefix, and more. -/
def Wrapper.matchesWords (wrapper : Wrapper) (argv : List Word) : Bool :=
  decide (wrapper.prefixWords.length < argv.length) &&
    (wrapper.prefixWords.zip argv).zipIdx.all fun entry =>
      if entry.2 = 0 then programName entry.1.2 == some entry.1.1 else known entry.1.2.value == some entry.1.1

/-- What one turn of the stripping comes to. -/
inductive Turn
  | done (s : Stripping)
  | next (s : Stripping)
  | find (s : Stripping)
  | panics

/-- Strip a wrapper of the table. -/
def Stripping.stripWrapper (style : PathStyle) (s : Stripping) (wrapper : Wrapper) (first : String) : Turn :=
  let read := readOptions style wrapper first ⟨wrapper.prefixWords.length, false, s.cwd, s.currentCwd, s.searchPath⟩
    (s.argv.drop wrapper.prefixWords.length)
  let read := if first = "direnv" then
      s.argv[read.i]?.elim read fun dir => read.change dir.value style
    else read
  let i := read.i + wrapper.positional
  if s.argv.length ≤ i then .done { s with cwd := read.cwd, currentCwd := read.currentCwd, searchPath := read.searchPath }
  else .next ⟨s.argv.drop i, s.wrappers ++ [s.argv.take i], read.cwd, read.currentCwd,
    if (wrapper.prefixWords.head?.any fun name => pathPreserving.contains name) then read.searchPath else .set .unknown⟩

/-- Strip `xargs`. -/
def Stripping.stripXargs (s : Stripping) : Turn :=
  let skipped := skipOptions xargsValueFlags 1 false (s.argv.drop 1)
  if s.argv.length < skipped.1 then .panics
  else .next { s with
    argv := xargsWords skipped.2 (s.argv.drop skipped.1)
    wrappers := s.wrappers ++ [s.argv.take skipped.1] }

/-- One turn of the stripping, the assignments before the program dropped. -/
def Stripping.strip (grammar : Grammar) (style : PathStyle) (s : Stripping) : Turn :=
  match s.argv.head?.bind programName with
  | none => .done s
  | some first =>
    if first = "doppler" ∧ (s.argv[1]?.bind fun word => known word.value) = some "run" then
      match stripDoppler grammar s.argv with
      | some (consumed, inner) => .next { s with argv := inner, wrappers := s.wrappers ++ [s.argv.take consumed] }
      | none => .done s
    else if first = "xargs" then s.stripXargs
    else if first = "find" then .find s
    else
      match wrapperTable.find? fun wrapper => wrapper.matchesWords s.argv with
      | some wrapper => s.stripWrapper style wrapper first
      | none => .done s

/-- One turn of the stripping. -/
def Stripping.turn (grammar : Grammar) (style : PathStyle) (s : Stripping) : Turn :=
  (s.dropAssignments style).strip grammar style

/-- The commands of the actions of `find`, as a command with these words runs them. -/
def Stripping.actions (raw : RawInvocation) (s : Stripping) : List RawInvocation :=
  (findActions (foundPath (s.argv.drop 1)) (s.argv.drop 1)).map fun words =>
    ⟨words, .none, s.currentCwd, match s.searchPath with
      | .set path => some path
      | .inherited => none, [], raw.language, raw.location⟩

section Ends

variable {grammar : Grammar} {style : PathStyle} {s s' : Stripping} {argv : List Word}

/-- Fewer words know no more text. -/
theorem knownText_le_of_sublist {words more : List Word} (h : words.Sublist more) : knownText words ≤ knownText more := by
  induction h with
  | slnil => exact Nat.le_refl _
  | cons word _ ih => exact Nat.le_trans ih (Nat.le_add_left _ _)
  | cons_cons word _ ih => exact Nat.add_le_add_left ih _

/-- Behind a word of which some text is known less is known. -/
theorem knownText_drop_lt {i n : ℕ} {word : Word} (hword : argv[i]? = some word) (hknown : 0 < knownLength word)
    (hn : i < n) : knownText (argv.drop n) < knownText argv := by
  obtain ⟨hi, rfl⟩ := List.getElem?_eq_some_iff.mp hword
  have hrest : knownText (argv.drop n) ≤ knownText (argv.drop (i + 1)) := by
    apply knownText_le_of_sublist
    rw [← Nat.add_sub_cancel' (Nat.succ_le_of_lt hn), ← List.drop_drop]
    exact List.drop_sublist _ _
  have hfrom : knownText (argv.drop i) ≤ knownText argv := knownText_le_of_sublist (List.drop_sublist i argv)
  rw [← List.getElem_cons_drop hi, knownText_cons] at hfrom
  omega

/-- A program's name is no longer than the word that names it. -/
theorem length_le_of_programName {word : Word} {first : String} (h : programName word = some first) :
    first.toList.length ≤ knownLength word := by
  obtain ⟨text, htext, rfl⟩ := Option.map_eq_some_iff.mp h
  have hbase : (basename text).toList.length ≤ text.toList.length := by
    rw [basename, String.toList_ofList]
    exact (List.rtakeWhile_suffix _ _).length_le
  rw [knownLength, htext, Option.elim_some]
  cases hstrip : stripSuffix (basename text) ".exe" with
  | none => exact hbase
  | some name =>
    rw [stripSuffix] at hstrip
    split at hstrip
    · rw [Option.getD_some, ← Option.some.inj hstrip, String.toList_ofList]
      exact Nat.le_trans (List.length_take_le' _ _) hbase
    · exact absurd hstrip.symm (Option.some_ne_none name)

/-- The program of a command is named by its first word. -/
theorem exists_cons_of_program {first : String} (h : argv.head?.bind programName = some first) :
    ∃ head rest, argv = head :: rest ∧ programName head = some first := by
  obtain ⟨head, hhead, hname⟩ := Option.bind_eq_some_iff.mp h
  cases argv with
  | nil => cases hhead
  | cons word rest =>
    obtain rfl := Option.some.inj hhead
    exact ⟨_, rest, rfl, hname⟩

theorem le_skipOptions (valueFlags : List String) (i : ℕ) (replace : Bool) (words : List Word) :
    i ≤ (skipOptions valueFlags i replace words).1 := by
  fun_induction skipOptions valueFlags i replace words with
  | case1 | case2 | case3 => exact Nat.le_refl _
  | case4 => exact Nat.le_succ _
  | case5 i replace word rest text htext hoption hother replace' hvalue ih => omega
  | case6 i replace word rest text htext hoption hother replace' hvalue ih => omega

theorem le_readOptions (wrapper : Wrapper) (first : String) (r : Reading) (words : List Word) :
    r.i ≤ (readOptions style wrapper first r words).i := by
  fun_induction readOptions style wrapper first r words with
  | case1 | case3 | case5 => exact Nat.le_refl _
  | case2 | case4 | case6 | case9 =>
    rename_i ih
    exact Nat.le_of_succ_le ih
  | case7 | case8 =>
    rename_i ih
    exact Nat.le_of_succ_le (Nat.le_of_succ_le ih)

/-- What `xargs` puts in has less known text than its name. -/
theorem knownText_xargsWords_le (replace : Bool) (words : List Word) :
    knownText (xargsWords replace words) ≤ knownText words + 4 := by
  have hecho : knownText (if words.isEmpty then [literal "echo"] else words) ≤ knownText words + 4 := by
    split
    · exact Nat.le_trans (by decide) (Nat.le_add_left 4 _)
    · exact Nat.le_add_right _ _
  rw [xargsWords]
  generalize (if words.isEmpty then [literal "echo"] else words) = argv at hecho
  have hunknown : ∀ words : List Word, knownText (words.map fun word => { word with value := .unknown }) = 0 := by
    intro words
    induction words with
    | nil => rfl
    | cons word words ih =>
      rw [List.map_cons, knownText_cons, ih]
      rfl
  split
  · rw [knownText_append, hunknown, Nat.add_zero]
    exact Nat.le_trans (knownText_le_of_sublist (List.take_sublist 1 argv)) hecho
  · rw [knownText_append]
    exact hecho

/-- What `--` ends or a command is given in is known. -/
theorem knownLength_pos_of_endsOptions {word : Word} (h : endsOptions word = true) : 0 < knownLength word := by
  rw [knownLength, eq_of_beq h]
  decide

theorem knownLength_pos_of_isCommandFlag {word : Word} (h : isCommandFlag word = true) : 0 < knownLength word := by
  rw [isCommandFlag, Option.any_eq_true] at h
  obtain ⟨text, htext, hflag⟩ := h
  rw [knownLength, htext, Option.elim_some]
  rw [Bool.or_eq_true, beq_iff_eq] at hflag
  cases hflag with
  | inl heq =>
    rw [heq]
    decide
  | inr hstart =>
    have hprefix := (List.isPrefixOf_iff_prefix.mp hstart).length_le
    exact Nat.lt_of_lt_of_le (by decide) hprefix

/-- The words of a command given as text have together no more characters than it. -/
theorem knownText_literals_le {value : String} {inner : List (List Char)}
    (h : simpleArgv grammar value.toList = some inner) :
    knownText (inner.map fun word => literal (String.ofList word)) ≤ value.toList.length := by
  have hlengths : (inner.map fun word => literal (String.ofList word)).map knownLength = inner.map List.length := by
    rw [List.map_map]
    apply List.map_congr_left
    intro word _
    exact congrArg List.length (String.toList_ofList)
  rw [knownText, hlengths]
  exact sum_length_simpleArgv_le h

/-- A command given as text has less of it than the words it is given in. -/
theorem length_commandText_lt {idx : ℕ} {given : ℕ × String} (hflag : ∃ word, argv[idx]? = some word ∧ isCommandFlag word)
    (h : commandText argv idx = some given) : given.2.toList.length < knownText argv := by
  obtain ⟨word, hword, hflag⟩ := hflag
  obtain ⟨hlt, rfl⟩ := List.getElem?_eq_some_iff.mp hword
  have hpositive := knownLength_pos_of_isCommandFlag hflag
  have hfrom : knownText (argv.drop idx) ≤ knownText argv := knownText_le_of_sublist (List.drop_sublist idx argv)
  rw [← List.getElem_cons_drop hlt, knownText_cons] at hfrom
  obtain ⟨text, htext, h⟩ := Option.bind_eq_some_iff.mp h
  rw [hword, Option.bind_some] at htext
  have hlength : knownLength argv[idx] = text.toList.length := by rw [knownLength, htext, Option.elim_some]
  split at h
  · rename_i value hstrip
    obtain rfl := Option.some.inj h
    obtain ⟨rest, hrest, rfl⟩ := Option.map_eq_some_iff.mp hstrip
    obtain ⟨start, hsplit, hstart⟩ := List.dropPrefix?_eq_some_iff.mp hrest
    have hsize : start.length = 10 := by
      rw [eq_of_beq hstart]
      rfl
    rw [hsplit, List.length_append] at hlength
    rw [String.toList_ofList]
    omega
  · obtain ⟨value, hnext, rfl⟩ := Option.map_eq_some_iff.mp h
    obtain ⟨word, hget, hknown⟩ := Option.bind_eq_some_iff.mp hnext
    obtain ⟨hnextlt, rfl⟩ := List.getElem?_eq_some_iff.mp hget
    rw [← List.getElem_cons_drop hnextlt, knownText_cons] at hfrom
    have hvalue : knownLength argv[idx + 1] = value.toList.length := by rw [knownLength, hknown, Option.elim_some]
    dsimp only
    omega

/-- The command of `doppler run` has less known text than the words it is given in. -/
theorem knownText_stripDoppler_lt {consumed : ℕ} {inner : List Word}
    (h : stripDoppler grammar argv = some (consumed, inner)) : knownText inner < knownText argv := by
  rw [stripDoppler] at h
  split at h
  · rename_i sep hsep
    obtain ⟨hlt, hends, _⟩ := List.findIdx?_eq_some_iff_getElem.mp hsep
    obtain ⟨_, rfl⟩ := Prod.mk.inj (Option.some.inj h)
    exact knownText_drop_lt (List.getElem?_eq_getElem hlt) (knownLength_pos_of_endsOptions hends) (Nat.lt_succ_self sep)
  · obtain ⟨idx, hidx, h⟩ := Option.bind_eq_some_iff.mp h
    obtain ⟨given, hgiven, h⟩ := Option.bind_eq_some_iff.mp h
    obtain ⟨words, hwords, h⟩ := Option.bind_eq_some_iff.mp h
    obtain ⟨_, rfl⟩ := Prod.mk.inj (Option.some.inj h)
    obtain ⟨hlt, hflag, _⟩ := List.findIdx?_eq_some_iff_getElem.mp hidx
    exact Nat.lt_of_le_of_lt (knownText_literals_le hwords)
      (length_commandText_lt ⟨argv[idx], List.getElem?_eq_getElem hlt, hflag⟩ hgiven)

/-- What the first word of `xargs` knows is longer than what is put in for its input. -/
theorem knownText_stripXargs_lt (hprogram : s.argv.head?.bind programName = some "xargs")
    (h : s.stripXargs = .next s') : knownText s'.argv < knownText s.argv := by
  obtain ⟨head, rest, hargv, hname⟩ := exists_cons_of_program hprogram
  have hlength : 5 ≤ knownLength head := length_le_of_programName hname
  rw [Stripping.stripXargs] at h
  split at h
  · cases h
  · cases h
    have hskip := le_skipOptions xargsValueFlags 1 false (s.argv.drop 1)
    generalize skipOptions xargsValueFlags 1 false (s.argv.drop 1) = skipped at hskip
    have hdrop : knownText (s.argv.drop skipped.1) ≤ knownText (s.argv.drop 1) := by
      apply knownText_le_of_sublist
      rw [← Nat.add_sub_cancel' hskip, ← List.drop_drop]
      exact List.drop_sublist _ _
    refine Nat.lt_of_le_of_lt (knownText_xargsWords_le skipped.2 (s.argv.drop skipped.1)) ?_
    rw [hargv, List.drop_one, List.tail_cons] at hdrop
    rw [hargv, knownText_cons]
    omega

/-- Every wrapper is called by a program that has a name. -/
theorem exists_prefixWords {wrapper : Wrapper} (h : wrapper ∈ wrapperTable) :
    ∃ name names, wrapper.prefixWords = name :: names ∧ 0 < name.toList.length := by
  have hall : wrapperTable.all fun wrapper => wrapper.prefixWords.head?.any fun name => 0 < name.toList.length := by
    decide
  have hone := List.all_eq_true.mp hall wrapper h
  rw [Option.any_eq_true] at hone
  obtain ⟨name, hhead, hlength⟩ := hone
  cases hwords : wrapper.prefixWords with
  | nil =>
    rw [hwords] at hhead
    cases hhead
  | cons first names =>
    rw [hwords] at hhead
    cases hhead
    exact ⟨_, names, rfl, of_decide_eq_true hlength⟩

/-- The first word of a wrapper's command is known. -/
theorem knownLength_pos_of_matchesWords {wrapper : Wrapper} (hmem : wrapper ∈ wrapperTable) {head : Word}
    {rest : List Word} (h : wrapper.matchesWords (head :: rest) = true) : 0 < knownLength head := by
  obtain ⟨name, names, hwords, hlength⟩ := exists_prefixWords hmem
  rw [Wrapper.matchesWords, Bool.and_eq_true, hwords, List.zip_cons_cons, List.zipIdx_cons, List.all_cons,
    Bool.and_eq_true, if_pos rfl, beq_iff_eq] at h
  exact Nat.lt_of_lt_of_le hlength (length_le_of_programName h.2.1)

/-- The position behind a wrapper is behind its prefix. -/
theorem stripWrapper_cases (style : PathStyle) (s : Stripping) (wrapper : Wrapper) (first : String) :
    (∃ s', s.stripWrapper style wrapper first = .done s' ∧ s'.argv = s.argv ∧ s'.wrappers = s.wrappers) ∨
      ∃ s' i, s.stripWrapper style wrapper first = .next s' ∧ wrapper.prefixWords.length ≤ i ∧
        s'.argv = s.argv.drop i ∧ s'.wrappers = s.wrappers ++ [s.argv.take i] := by
  rw [Stripping.stripWrapper]
  generalize hread : readOptions style wrapper first _ _ = read
  have hoptions : wrapper.prefixWords.length ≤ read.i := by
    rw [← hread]
    exact le_readOptions wrapper first ⟨wrapper.prefixWords.length, false, s.cwd, s.currentCwd, s.searchPath⟩ _
  generalize hplaced : (if first = "direnv" then _ else read) = placed
  have hsame : placed.i = read.i := by
    rw [← hplaced]
    split
    · cases s.argv[read.i]? with
      | none => rfl
      | some dir => rfl
    · rfl
  split
  · exact Or.inl ⟨_, rfl, rfl, rfl⟩
  · exact Or.inr ⟨_, placed.i + wrapper.positional, rfl, by omega, rfl, rfl⟩

/-- A turn is the last one, for the actions of `find` or with the words as they are, strips the words of `doppler run`
or a wrapper, or is that of `xargs`. -/
theorem strip_cases (grammar : Grammar) (style : PathStyle) (s : Stripping) :
    (∃ s', s.strip grammar style = .done s' ∧ s'.argv = s.argv ∧ s'.wrappers = s.wrappers) ∨
    (s.argv.head?.bind programName = some "find" ∧ s.strip grammar style = .find s) ∨
    (∃ consumed inner, (∃ word, s.argv[1]? = some word ∧ known word.value = some "run") ∧
      s.argv.head?.bind programName = some "doppler" ∧ stripDoppler grammar s.argv = some (consumed, inner) ∧
      s.strip grammar style = .next { s with argv := inner, wrappers := s.wrappers ++ [s.argv.take consumed] }) ∨
    (s.argv.head?.bind programName = some "xargs" ∧ s.strip grammar style = s.stripXargs) ∨
    (∃ s' i word, s.strip grammar style = .next s' ∧ s.argv.head? = some word ∧ 0 < knownLength word ∧ 0 < i ∧
      s.argv.head?.bind programName ≠ some "xargs" ∧
      s'.argv = s.argv.drop i ∧ s'.wrappers = s.wrappers ++ [s.argv.take i]) := by
  rw [Stripping.strip]
  cases hprogram : s.argv.head?.bind programName with
  | none => exact Or.inl ⟨s, rfl, rfl, rfl⟩
  | some first =>
    dsimp only
    split
    · rename_i hdoppler
      cases hstrip : stripDoppler grammar s.argv with
      | none => exact Or.inl ⟨s, rfl, rfl, rfl⟩
      | some taken =>
        obtain ⟨consumed, inner⟩ := taken
        refine Or.inr (Or.inr (Or.inl ⟨consumed, inner, Option.bind_eq_some_iff.mp hdoppler.2, ?_, rfl, rfl⟩))
        rw [hdoppler.1]
    · split
      · rename_i hxargs
        refine Or.inr (Or.inr (Or.inr (Or.inl ⟨?_, rfl⟩)))
        rw [hxargs]
      · rename_i hxargs
        split
        · rename_i hfind
          refine Or.inr (Or.inl ⟨?_, rfl⟩)
          rw [hfind]
        · split
          · rename_i wrapper hwrapper
            cases stripWrapper_cases style s wrapper first with
            | inl hdone => exact Or.inl hdone
            | inr hnext =>
              obtain ⟨s', i, hturn, hi, hargv, hwrappers⟩ := hnext
              obtain ⟨head, rest, hcons, hname⟩ := exists_cons_of_program hprogram
              have hmem := List.mem_of_find?_eq_some hwrapper
              have hmatches := List.find?_some hwrapper
              rw [hcons] at hmatches
              obtain ⟨name, names, hwords, _⟩ := exists_prefixWords hmem
              rw [hwords, List.length_cons] at hi
              refine Or.inr (Or.inr (Or.inr (Or.inr ⟨s', i, head, hturn, by rw [hcons]; rfl,
                knownLength_pos_of_matchesWords hmem hmatches, by omega, ?_, hargv, hwrappers⟩)))
              exact fun heq => hxargs (Option.some.inj heq)
          · exact Or.inl ⟨s, rfl, rfl, rfl⟩

/-- Without the assignments before the program no more text is known. -/
theorem knownText_dropAssignments_le (style : PathStyle) (s : Stripping) :
    knownText (s.dropAssignments style).argv ≤ knownText s.argv :=
  knownText_le_of_sublist (List.dropWhile_sublist isAssignment)

/-- A turn that goes on leaves less known text. -/
theorem knownText_turn_lt (h : s.turn grammar style = .next s') : knownText s'.argv < knownText s.argv := by
  refine Nat.lt_of_lt_of_le ?_ (knownText_dropAssignments_le style s)
  rw [Stripping.turn] at h
  generalize s.dropAssignments style = t at h
  rcases strip_cases grammar style t with hdone | hfind | hdoppler | hxargs | hwrapper
  · obtain ⟨_, hdone, _⟩ := hdone
    rw [hdone] at h
    cases h
  · rw [hfind.2] at h
    cases h
  · obtain ⟨consumed, inner, _, _, hinner, hnext⟩ := hdoppler
    rw [hnext] at h
    cases h
    exact knownText_stripDoppler_lt hinner
  · rw [hxargs.2] at h
    exact knownText_stripXargs_lt hxargs.1 h
  · obtain ⟨next, i, word, hnext, hhead, hknown, hi, _, hargv, _⟩ := hwrapper
    rw [hnext] at h
    cases h
    rw [hargv]
    exact knownText_drop_lt (i := 0) (by rw [← List.head?_eq_getElem?, hhead]) hknown hi

/-- The last turn leaves the words behind the assignments. -/
theorem turn_done (h : s.turn grammar style = .done s') :
    s'.argv = s.argv.dropWhile isAssignment ∧ s'.wrappers = s.wrappers := by
  rw [Stripping.turn] at h
  rcases strip_cases grammar style (s.dropAssignments style) with
    hdone | hfind | hdoppler | hxargs | hwrapper
  · obtain ⟨last, hdone, hargv, hwrappers⟩ := hdone
    rw [hdone] at h
    cases h
    exact ⟨hargv, hwrappers⟩
  · rw [hfind.2] at h
    cases h
  · obtain ⟨_, _, _, _, _, hnext⟩ := hdoppler
    rw [hnext] at h
    cases h
  · rw [hxargs.2, Stripping.stripXargs] at h
    split at h <;> cases h
  · obtain ⟨_, _, _, hnext, _⟩ := hwrapper
    rw [hnext] at h
    cases h

/-- The actions of `find` are those of the words behind the assignments. -/
theorem turn_find (h : s.turn grammar style = .find s') :
    s'.argv.head?.bind programName = some "find" ∧ s' = s.dropAssignments style := by
  rw [Stripping.turn] at h
  generalize s.dropAssignments style = t at h
  rcases strip_cases grammar style t with hdone | hfind | hdoppler | hxargs | hwrapper
  · obtain ⟨_, hdone, _⟩ := hdone
    rw [hdone] at h
    cases h
  · rw [hfind.2] at h
    cases h
    exact ⟨hfind.1, rfl⟩
  · obtain ⟨_, _, _, _, _, hnext⟩ := hdoppler
    rw [hnext] at h
    cases h
  · rw [hxargs.2, Stripping.stripXargs] at h
    split at h <;> cases h
  · obtain ⟨_, _, _, hnext, _⟩ := hwrapper
    rw [hnext] at h
    cases h

/-- What a path found stands for is not known whole. -/
theorem known_foundPath (args : List Word) : known (foundPath args) = none := by
  rw [foundPath]
  split
  · rfl
  · dsimp only
    split <;> rfl

/-- With the path found put in a word knows no more text. -/
theorem knownLength_foundWord_le {found : Value} (hfound : known found = none) (word : Word) :
    knownLength (foundWord found word) ≤ knownLength word := by
  rw [foundWord]
  split
  · split
    · rw [knownLength, hfound]
      exact Nat.zero_le _
    · split
      · exact Nat.zero_le _
      · exact Nat.le_refl _
  · exact Nat.le_refl _

theorem knownText_map_foundWord_le {found : Value} (hfound : known found = none) (words : List Word) :
    knownText (words.map (foundWord found)) ≤ knownText words := by
  induction words with
  | nil => exact Nat.le_refl _
  | cons word words ih => exact Nat.add_le_add (knownLength_foundWord_le hfound word) ih

/-- The words of an action of `find` know no more text than the words after the program. -/
theorem knownText_findActions_le {found : Value} (hfound : known found = none) {args words : List Word}
    (h : words ∈ findActions found args) : knownText words ≤ knownText args := by
  fun_induction findActions found args with
  | case1 => exact absurd h List.not_mem_nil
  | case2 word rest hstarts ih =>
    rw [knownText_cons]
    cases List.mem_cons.mp h with
    | inl heq =>
      have htake := knownText_le_of_sublist (List.takeWhile_sublist (l := rest) fun w => !endsAction w)
      rw [heq]
      exact Nat.le_trans (knownText_map_foundWord_le hfound _) (Nat.le_trans htake (Nat.le_add_left _ _))
    | inr hmem =>
      have hdrop := knownText_le_of_sublist
        ((List.tail_sublist _).trans (List.dropWhile_sublist (l := rest) fun w => !endsAction w))
      exact Nat.le_trans (ih hmem) (Nat.le_trans hdrop (Nat.le_add_left _ _))
  | case3 word rest hother ih => exact Nat.le_trans (ih h) (Nat.le_add_left _ _)

/-- The words of an action of `find` have less known text than the command. -/
theorem knownText_actions_lt (h : s.turn grammar style = .find s') {raw action : RawInvocation}
    (haction : action ∈ s'.actions raw) : knownText action.words < knownText s.argv := by
  refine Nat.lt_of_lt_of_le ?_ (knownText_dropAssignments_le style s)
  obtain ⟨hprogram, rfl⟩ := turn_find h
  obtain ⟨head, rest, hargv, hname⟩ := exists_cons_of_program hprogram
  have hlength : 4 ≤ knownLength head := length_le_of_programName hname
  obtain ⟨words, hwords, rfl⟩ := List.mem_map.mp haction
  have hle := knownText_findActions_le (known_foundPath _) hwords
  rw [hargv, List.drop_one, List.tail_cons] at hle
  rw [hargv, knownText_cons]
  exact Nat.lt_of_le_of_lt hle (by omega)

end Ends

section Analysis

variable {A : Type*} {limit : ℕ}

/-- What the analysis of a command does once that is unwrapped: it ends, or the walk of source embedded in the command
hands over a command it finds, deeper than this one and no deeper than the limit on sources, and goes on with what
that leaves. A walk that comes to neither gives no result. -/
inductive Walk (A : Type*) (limit depth : ℕ)
  | done (a : A)
  | command (a : A) (raw : RawInvocation) (frame : Frame) (deeper : depth < frame.depth)
      (admitted : frame.depth ≤ limit) (next : A → Walk A limit depth)
  | stuck

/-- Run a walk, the commands handed over by a function. -/
def Walk.run {depth : ℕ} (hand : A → RawInvocation → (frame : Frame) → depth < frame.depth → frame.depth ≤ limit →
    Option A) : Walk A limit depth → Option A
  | .done a => some a
  | .command a raw frame deeper admitted next => (hand a raw frame deeper admitted).bind fun a => (next a).run hand
  | .stuck => none

mutual

/-- Strip a command from what its stripping has come to. What the analysis of an unwrapped command does is a
parameter. -/
def unwrapFrom (grammar : Grammar) (style : PathStyle)
    (rest : A → RawInvocation → (frame : Frame) → Unwrapped → Walk A limit frame.depth)
    (a : A) (raw : RawInvocation) (frame : Frame) (s : Stripping) : Option (A × Unwrapped) :=
  match _hturn : s.turn grammar style with
  | .panics => none
  | .done s' => some (a, s'.unwrapped)
  | .next s' => unwrapFrom grammar style rest a raw frame s'
  | .find s' =>
    ((s'.actions raw).attach.foldlM (fun a action => invocation grammar style rest a action.1 frame) a).map fun a =>
      (a, s'.unwrapped)
termination_by (limit - frame.depth, knownText s.argv, 0)
decreasing_by
  · exact Prod.Lex.right _ (Prod.Lex.left _ _ (knownText_turn_lt _hturn))
  · exact Prod.Lex.right _ (Prod.Lex.left _ _ (knownText_actions_lt _hturn action.2))

/-- Analyse a command: unwrap it, and go on with the rest. -/
def invocation (grammar : Grammar) (style : PathStyle)
    (rest : A → RawInvocation → (frame : Frame) → Unwrapped → Walk A limit frame.depth)
    (a : A) (raw : RawInvocation) (frame : Frame) : Option A :=
  (unwrapFrom grammar style rest a raw frame (raw.stripping frame)).bind fun inner =>
    (rest inner.1 raw frame inner.2).run fun a command child _deeper _admitted =>
      invocation grammar style rest a command child
termination_by (limit - frame.depth, knownText raw.words, 1)
decreasing_by
  · exact Prod.Lex.right _ (Prod.Lex.right _ Nat.zero_lt_one)
  · exact Prod.Lex.left _ _ (by omega)

end

/-- A command without its wrappers. -/
def unwrap (grammar : Grammar) (style : PathStyle)
    (rest : A → RawInvocation → (frame : Frame) → Unwrapped → Walk A limit frame.depth) (a : A) (raw : RawInvocation)
    (frame : Frame) : Option (A × Unwrapped) :=
  unwrapFrom grammar style rest a raw frame (raw.stripping frame)

end Analysis

end Devkit.Command
