import Devkit.Config.Resolved

/-!
# The options of a child process

The variable's lines hold no line break, so a child splits it into the lines of the leaves. It parses each
as its leaf, accepts it, and sets the leaves in turn, which builds the table that left.
-/

namespace Devkit.Config

open Devkit.Common
open Devkit.Library
open Devkit.Library.Toml
open Devkit.Todos (isWhitespace)

variable {S : Type}

section Lines

/-- No character is below a space. -/
def Printed (text : List Char) : Prop := ∀ c ∈ text, 0x20 ≤ c.toNat

instance (text : List Char) : Decidable (Printed text) :=
  List.decidableBAll (fun c : Char => 0x20 ≤ c.toNat) text

/-- Texts after one another are printed where each is. -/
theorem Printed.append {first second : List Char} (hfirst : Printed first) (hsecond : Printed second) :
    Printed (first ++ second) := fun c hc => (List.mem_append.mp hc).elim (hfirst c) (hsecond c)

/-- A text after a character. -/
theorem Printed.cons {c : Char} (hc : 0x20 ≤ c.toNat) {rest : List Char} (hrest : Printed rest) : Printed (c :: rest) :=
  List.forall_mem_cons.mpr ⟨hc, hrest⟩

/-- The empty text is printed. -/
theorem printed_nil : Printed [] := nofun

/-- Texts with a separator are printed where all are. -/
theorem Printed.intercalate {separator : List Char} (hseparator : Printed separator) {texts : List (List Char)}
    (h : ∀ text ∈ texts, Printed text) : Printed (separator.intercalate texts) := by
  induction texts with
  | nil => exact printed_nil
  | cons text rest ih =>
    obtain ⟨htext, hrest⟩ := List.forall_mem_cons.mp h
    cases rest with
    | nil => rwa [List.intercalate_singleton]
    | cons next rest =>
      rw [List.intercalate_cons_cons]
      exact (htext.append hseparator).append (ih hrest)

/-- A digit is printed. -/
theorem hexDigit_printed {n : ℕ} (hn : n < 16) : 0x20 ≤ (hexDigit n).toNat := by
  have hall : ∀ n < 16, 0x20 ≤ (hexDigit n).toNat := by decide
  exact hall n hn

/-- A character of a basic string is spelled in printed ones. -/
theorem printed_escapeChar (c : Char) : Printed (escapeChar c) := by
  rw [escapeChar]
  split
  · decide
  · split
    · decide
    · split
      · rename_i hcontrol
        have hsmall : c.toNat < 0xa0 := by
          simp only [isControl, Bool.or_eq_true, Bool.and_eq_true, decide_eq_true_eq] at hcontrol
          omega
        refine .cons (by decide) (.cons (by decide) ?_)
        refine .cons (hexDigit_printed ?_) (.cons (hexDigit_printed ?_) (.cons (hexDigit_printed ?_)
          (.cons (hexDigit_printed ?_) printed_nil)))
        · omega
        · omega
        · omega
        · omega
      · rename_i hcontrol
        refine .cons ?_ printed_nil
        simp only [isControl, Bool.or_eq_true, Bool.and_eq_true, decide_eq_true_eq] at hcontrol
        omega

/-- A basic string is printed. -/
theorem printed_basicString (text : String) : Printed (basicString text) := by
  refine .append (.cons (by decide) fun c hc => ?_) (.cons (by decide) printed_nil)
  obtain ⟨of, _, hc⟩ := List.mem_flatMap.mp hc
  exact printed_escapeChar of c hc

/-- A key is printed. -/
theorem printed_tomlKey (key : String) : Printed (tomlKey key) := by
  rw [tomlKey]
  split
  · rename_i hbare
    rw [Bool.and_eq_true, List.all_eq_true] at hbare
    intro c hc
    have hrange := isBareKeyChar_range (hbare.2 c hc)
    omega
  · exact printed_basicString key

variable {scalarOf : List Char → Option S} {display : S → List Char}

mutual

/-- A value on one line is printed. -/
theorem printed_inline (h : Spells scalarOf display) (value : Value S) : Printed (inline display value) := by
  match value with
  | .string text => exact printed_basicString text
  | .scalar value =>
    intro c hc
    have htoken := h.plain value c hc
    simp only [endsToken, Bool.or_eq_false_iff, decide_eq_false_iff_not] at htoken
    omega
  | .array items =>
    rw [inline]
    exact .append (.cons (by decide) (.intercalate (by decide) (printed_inlineItems h items))) (by decide)
  | .table entries =>
    rw [inline]
    exact .append (.append (by decide) (.intercalate (by decide) (printed_inlineEntries h entries))) (by decide)

/-- The items of an array are printed. -/
theorem printed_inlineItems (h : Spells scalarOf display) (items : List (Value S)) :
    ∀ text ∈ inlineItems display items, Printed text := by
  match items with
  | [] => exact nofun
  | value :: rest => exact List.forall_mem_cons.mpr ⟨printed_inline h value, printed_inlineItems h rest⟩

/-- The entries of an inline table are printed. -/
theorem printed_inlineEntries (h : Spells scalarOf display) (entries : Table S) :
    ∀ text ∈ inlineEntries display entries, Printed text := by
  match entries with
  | [] => exact nofun
  | (key, value) :: rest =>
    refine List.forall_mem_cons.mpr ⟨?_, printed_inlineEntries h rest⟩
    exact ((printed_tomlKey key).append (by decide)).append (printed_inline h value)

end

/-- The line of a leaf is printed. -/
theorem printed_lineText (h : Spells scalarOf display) (leaf : List String × Value S) :
    Printed (lineText display leaf) := by
  refine .append (.intercalate (by decide) fun text htext => ?_) (.cons (by decide) (printed_inline h leaf.2))
  obtain ⟨key, _, rfl⟩ := List.mem_map.mp htext
  exact printed_tomlKey key

/-- The line of a leaf is not blank. -/
theorem trim_lineText (display : S → List Char) (leaf : List String × Value S) : trim (lineText display leaf) ≠ [] := by
  have hequals : '=' ∈ lineText display leaf := List.mem_append_right _ List.mem_cons_self
  intro hblank
  have hall := List.rdropWhile_eq_nil_iff.mp hblank
  by_cases hdrop : (lineText display leaf).dropWhile isWhitespace = []
  · exact absurd (List.dropWhile_eq_nil_iff.mp hdrop '=' hequals) (by decide)
  · have hhead := List.head_dropWhile_not isWhitespace hdrop
    rw [hall _ (List.head_mem hdrop)] at hhead
    cases hhead

/-- The lines of printed texts that are no empty text, joined by line breaks, are the texts. -/
theorem lines_intercalate {texts : List (List Char)} (hprinted : ∀ text ∈ texts, Printed text)
    (hfull : ∀ text ∈ texts, text ≠ []) (hsome : texts ≠ []) : lines (['\n'].intercalate texts) = texts := by
  have hbreak : ∀ text ∈ texts, '\n' ∉ text := fun text htext hmem => absurd (hprinted text htext _ hmem) (by decide)
  have hlast : texts.getLastD [] = texts.getLast hsome := by
    rw [List.getLastD_eq_getLast?, List.getLast?_eq_some_getLast hsome, Option.getD_some]
  have hended : texts.dropLast.map (fun line => if line.getLast? = some '\r' then line.dropLast else line) =
      texts.dropLast := by
    refine (List.map_congr_left fun text htext => ?_).trans (List.map_id _)
    have hreturn : text.getLast? ≠ some '\r' := fun heq =>
      absurd (hprinted text (List.dropLast_subset texts htext) _ (List.mem_of_getLast? heq)) (by decide)
    rw [if_neg hreturn, id]
  rw [lines, List.splitOn_intercalate _ hbreak hsome]
  simp only [hlast, hended, if_neg (hfull _ (List.getLast_mem hsome))]
  exact List.dropLast_append_getLast hsome

end Lines

section Child

variable {lib : Libraries S} {scalarOf : List Char → Option S} {display : S → List Char}

/-- The lines of accepted leaves set the leaves in turn. -/
theorem setAll_lines (h : FollowsToml lib scalarOf display) (label : String) {found : List (List String × Value S)}
    (hfound : ∀ leaf ∈ found, leaf.1 ≠ [] ∧ leaf.2.Ordered ∧ Accepted lib leaf.1 leaf.2) (table : Table S)
    (keys : List (List String)) :
    setAll lib label (found.map (lineText display)) (table, keys) =
      .ok (setLeaves table found, keys ++ (found.map Prod.fst).filter fun path => path.head? = some "harness") := by
  induction found generalizing table keys with
  | nil => rw [List.map_nil, List.map_nil, List.filter_nil, List.append_nil]; rfl
  | cons leaf rest ih =>
    obtain ⟨⟨hpath, hordered, haccepted⟩, hrest⟩ := List.forall_mem_cons.mp hfound
    have hcheck : checkKey lib label leaf.1 leaf.2 = .ok () := checkKey_eq_ok.mpr ⟨haccepted.set, haccepted.known⟩
    have hparse := parseOne_line h label hpath hordered
    have hstep : setAll lib label ((leaf :: rest).map (lineText display)) (table, keys) =
        setAll lib label (rest.map (lineText display)) (insertAt leaf.1 leaf.2 table,
          if leaf.1.head? = some "harness" then keys ++ [leaf.1] else keys) := by
      rw [List.map_cons, setAll, List.foldlM_cons, hparse]
      change (checkKey lib label leaf.1 leaf.2 >>= _) >>= _ = _
      rw [hcheck]
      rfl
    rw [hstep, ih hrest, List.map_cons, List.filter_cons]
    simp only [decide_eq_true_eq]
    split
    · rw [List.append_assoc, List.singleton_append]
      rfl
    · rfl

/-- A child parses the lines of an accepted table as the table. -/
theorem parseSet_lines (h : FollowsToml lib scalarOf display) (label : String) {table : Table S} (hsome : table ≠ [])
    (hleaves : AcceptedLeaves lib table) :
    parseSet lib label ((tableLeaves table).map (lineText display)) = .ok table := by
  have htable : tableLeaves table = leaves (.table table) := by
    obtain ⟨row, rest, rfl⟩ := List.exists_cons_of_ne_nil hsome
    rw [leaves]
  have hfound : ∀ leaf ∈ tableLeaves table, leaf.1 ≠ [] ∧ leaf.2.Ordered ∧ Accepted lib leaf.1 leaf.2 := by
    rintro ⟨path, held⟩ hleaf
    have hpath : path ≠ [] := by
      obtain ⟨_, _, _, _, _, hpath⟩ := mem_tableLeaves.mp hleaf
      exact fun hnil => nomatch hnil.symm.trans hpath
    rw [htable] at hleaf
    obtain ⟨hat, hheld⟩ := (mem_leaves hleaves.ordered).mp hleaf
    exact ⟨hpath, ordered_at hleaves.ordered hat, hleaves.accepted path held hpath hat hheld⟩
  have hset : setLeaves [] (tableLeaves table) = table :=
    setLeaves_table table hleaves.ordered.2 [] (by rw [List.nil_append]; exact hleaves.ordered.1)
  rw [parseSet, setAll_lines h label hfound, hset, List.nil_append]
  have hchecks : ((tableLeaves table).map Prod.fst |>.filter fun path => path.head? = some "harness").forM
      (checkHarnessValue lib label table) = .ok () := by
    refine forM_checkHarnessValue.mpr fun key hkey value hat => ?_
    obtain ⟨hmem, hharness⟩ := List.mem_filter.mp hkey
    obtain ⟨⟨path, held⟩, hleaf, rfl⟩ := List.mem_map.mp hmem
    have haccepted := (hfound _ hleaf).2.2
    rw [htable] at hleaf
    obtain rfl := Option.some.inj (hat.symm.trans ((mem_leaves hleaves.ordered).mp hleaf).1)
    exact haccepted.read (of_decide_eq_true hharness)
  change (List.forM _ (checkHarnessValue lib label table) >>= fun _ => Except.ok table) = _
  rw [hchecks]
  rfl

/-- A child of the variable's lines has the table that left. -/
theorem new_lines (h : FollowsToml lib scalarOf display) {table : Table S} (hsome : table ≠ [])
    (hleaves : AcceptedLeaves lib table) :
    Options.new lib (some (String.ofList (['\n'].intercalate (leafLines display [] table)))) [] = .ok ⟨table, []⟩ := by
  have htexts : leafLines display [] table = (tableLeaves table).map (lineText display) := leafLines_eq table []
  have hfull : tableLeaves table ≠ [] := by
    obtain ⟨row, rest, rfl⟩ := List.exists_cons_of_ne_nil hsome
    rw [← leaves]
    exact leaves_ne_nil _
  have hlines : lines (['\n'].intercalate (leafLines display [] table)) =
    (tableLeaves table).map (lineText display) := by
    rw [htexts]
    refine lines_intercalate (fun text htext => ?_) (fun text htext => ?_) fun hnil =>
      hfull (List.map_eq_nil_iff.mp hnil)
    · obtain ⟨leaf, _, rfl⟩ := List.mem_map.mp htext
      exact printed_lineText h.spells leaf
    · obtain ⟨leaf, _, rfl⟩ := List.mem_map.mp htext
      exact fun hnil => trim_lineText display leaf (by rw [hnil]; rfl)
  have hkept : ((tableLeaves table).map (lineText display)).filter (fun line => !(trim line).isEmpty) =
      (tableLeaves table).map (lineText display) := by
    refine List.filter_eq_self.mpr fun text htext => ?_
    obtain ⟨leaf, _, rfl⟩ := List.mem_map.mp htext
    simp [trim_lineText display leaf]
  rw [Options.new, Option.getD_some, String.toList_ofList, hlines, hkept, parseSet_lines h _ hsome hleaves]
  rfl

/-- One table in the environment is the merged one. -/
theorem merged_environment {table : Table S} (hsome : table ≠ []) (hordered : (Value.table table).Ordered) :
    (Options.mk table []).merged = some table := by
  have hempty : table.isEmpty = false := by simpa using hsome
  have hmerge : deepMerge table [] = [] ++ table := deepMerge_after hordered.1
  simp [Options.merged, Options.isEmpty, Options.layers, mergeLayers, hempty, hmerge]

end Child

/-- What stands for accepted leaves is accepted. -/
theorem AcceptedLeaves.stands {lib : Libraries S} {around : Surroundings} {start : OsStr} {checkoutRoot : Option OsStr}
    {merged table : Table S} (h : AcceptedLeaves lib merged)
    (hstands : Stands (leavingKeys around start checkoutRoot) merged table) (hordered : (Value.table table).Ordered) :
    AcceptedLeaves lib table := by
  have hkeys : (leavingKeys around start checkoutRoot).map Prod.fst = pathKeys := rfl
  refine ⟨hordered, fun path held hpath hat hheld => ?_⟩
  by_cases hother : path ∉ pathKeys ∨ ∀ raw, held ≠ .string raw
  · exact h.accepted path held hpath ((hstands.kept path held hpath hheld (hkeys ▸ hother)).mp hat) hheld
  · obtain ⟨hkey, hstring⟩ := not_or.mp hother
    obtain ⟨text, rfl⟩ := not_forall_not.mp hstring
    have hkey := not_not.mp hkey
    obtain ⟨row, hrow, rfl⟩ := List.mem_map.mp (hkeys ▸ hkey)
    -- A string stands where there was one.
    have hbefore : ∃ raw, (Value.table merged).at row.1 = some (.string raw) := by
      by_contra hnone
      exact hstands.absent row hrow (fun raw hat => hnone ⟨raw, hat⟩) text hat
    obtain ⟨raw, hraw⟩ := hbefore
    exact (h.accepted row.1 _ hpath hraw True.intro).string hkey text

/-- Options survive the trip to a child process: from the variable alone the child's merged table is the parent's,
each path key's string standing as the path it leaves as. -/
theorem options_reach_child {lib : Libraries S} {scalarOf : List Char → Option S} {display : S → List Char}
    (hfollows : FollowsToml lib scalarOf display) (hreaders : ∀ reads ∈ lib.readers.single, ReadsSingly reads)
    {variable_ : Option String} {commandLine : List String} {options : Options S}
    (hnew : Options.new lib variable_ commandLine = .ok options) {around : Surroundings} {start : OsStr}
    {checkoutRoot : Option OsStr} {text : String}
    (hvariable : options.toVariable display around start checkoutRoot = .ok (some text)) :
    ∃ merged table child, options.merged = some merged ∧ leaving around start checkoutRoot merged = .ok table ∧
      Options.new lib (some text) [] = .ok child ∧ child.merged = some table ∧
      Stands (leavingKeys around start checkoutRoot) merged table := by
  have hsets : AcceptedLeaves lib options.environment ∧ AcceptedLeaves lib options.commandLine := by
    rw [Options.new] at hnew
    cases henvironment : parseSet lib "$DEVKIT_OPTIONS"
        ((lines (variable_.getD "").toList).filter fun line => !(trim line).isEmpty) with
    | error reason =>
      simp only [henvironment] at hnew
      cases hnew
    | ok environment =>
      simp only [henvironment] at hnew
      cases hcommand : parseSet lib "--option" (commandLine.map String.toList) with
      | error reason =>
        simp only [hcommand] at hnew
        cases hnew
      | ok found =>
        simp only [hcommand] at hnew
        obtain rfl := Except.ok.inj hnew
        exact ⟨acceptedLeaves_of_parseSet hfollows.ordered hreaders henvironment,
          acceptedLeaves_of_parseSet hfollows.ordered hreaders hcommand⟩
  rw [Options.toVariable] at hvariable
  cases hmerged : options.merged with
  | none =>
    rw [hmerged] at hvariable
    cases hvariable
  | some merged =>
    rw [hmerged] at hvariable
    obtain ⟨hsome, hleaves⟩ := acceptedLeaves_merged hsets.1 hsets.2 hmerged
    cases hleaving : leaving around start checkoutRoot merged with
    | error reason =>
      simp only [hleaving] at hvariable
      cases hvariable
    | ok table =>
      simp only [hleaving] at hvariable
      obtain rfl := Option.some.inj (Except.ok.inj hvariable)
      obtain ⟨hstands, hordered, hfull⟩ := leaving_spec hleaving
      have htable : AcceptedLeaves lib table := hleaves.stands hstands (hordered hleaves.ordered)
      exact ⟨merged, table, ⟨table, []⟩, rfl, hleaving, new_lines hfollows (hfull hsome) htable,
        merged_environment (hfull hsome) htable.ordered, hstands⟩

section Sample

/-- The token of a boolean or of a whole number without leading zeros. -/
def isScalarText (text : List Char) : Bool :=
  text == "true".toList || text == "false".toList ||
    match text with
    | [] => false
    | ['0'] => true
    | c :: rest => c.isDigit && c != '0' && rest.all Char.isDigit

/-- A scalar kept as its token. -/
abbrev ScalarText := { text : List Char // isScalarText text = true }

/-- The scalar of a token. -/
def scalarText (text : List Char) : Option ScalarText := if h : isScalarText text = true then some ⟨text, h⟩ else none

/-- Libraries of a config whose tables take any key, with readers of booleans and strings alone. -/
def tokenLibraries : Libraries ScalarText where
  fromStr := readLine scalarText
  schemas := ⟨.object [("type", .string "object")], .object [("type", .string "object")], fun _ _ => none, 8⟩
  readers :=
    let boolean := fun value => match value with
      | .scalar token => token.val == "true".toList || token.val == "false".toList
      | _ => false
    let strings := fun value => match value with
      | .array items => items.all readsString
      | _ => false
    ⟨boolean, strings, readsString, readsString, readsString, readsString, readsString, readsString, strings,
      readsString, readsString, readsString, readsString, fun _ _ => false⟩

/-- A process in a home directory, whose paths are all texts. -/
def homeSurroundings : Surroundings :=
  ⟨fun name => if name = "HOME" then some (bytes "/home") else none, fun path => (toStr path).getD ""⟩

/-- A token is of letters and digits. -/
theorem isAlphanum_of_isScalarText {text : List Char} (h : isScalarText text = true) :
    text ≠ [] ∧ ∀ c ∈ text, c.isAlphanum = true := by
  unfold isScalarText at h
  rw [Bool.or_eq_true, Bool.or_eq_true, beq_iff_eq, beq_iff_eq] at h
  rcases h with (rfl | rfl) | h
  · exact ⟨List.cons_ne_nil _ _, List.all_eq_true.mp rfl⟩
  · exact ⟨List.cons_ne_nil _ _, List.all_eq_true.mp rfl⟩
  · match text, h with
    | [], h => cases h
    | c :: rest, h =>
      refine ⟨List.cons_ne_nil c rest, fun d hd => ?_⟩
      have hdigit : d.isDigit = true := by
        split at h
        · cases h
        · rename_i heq
          rw [heq] at hd
          exact List.mem_singleton.mp hd ▸ rfl
        · rename_i heq
          obtain ⟨rfl, rfl⟩ := List.cons.inj heq
          rw [Bool.and_eq_true, Bool.and_eq_true, List.all_eq_true] at h
          exact (List.mem_cons.mp hd).elim (fun heq => heq ▸ h.1.1) fun hrest => h.2 d hrest
      rw [Char.isAlphanum, hdigit, Bool.or_true]

/-- These libraries follow TOML. -/
theorem tokenLibraries_followsToml : FollowsToml tokenLibraries scalarText Subtype.val where
  spells := by
    have hrange : ∀ (value : ScalarText), ∀ c ∈ value.val, (48 ≤ c.toNat ∧ c.toNat ≤ 57) ∨
        (65 ≤ c.toNat ∧ c.toNat ≤ 90) ∨ (97 ≤ c.toNat ∧ c.toNat ≤ 122) ∨ c.toNat = 95 ∨ c.toNat = 45 :=
      fun value c hc => isBareKeyChar_range (by
        rw [isBareKeyChar, (isAlphanum_of_isScalarText value.2).2 c hc, Bool.true_or, Bool.true_or])
    refine ⟨fun value => dif_pos value.2, fun value c hc => ?_, fun value => ?_⟩
    · have hrange := hrange value c hc
      have hne : ∀ other : Char, c.toNat ≠ other.toNat → (c == other) = false := fun other hne =>
        beq_eq_false_iff_ne.mpr fun heq => hne (congrArg Char.toNat heq)
      rw [endsToken, isBlank, hne ' ', hne '\t', hne ',', hne ']', hne '}', hne '#']
      · simp only [Bool.false_or, decide_eq_false_iff_not]
        omega
      all_goals
        intro heq
        rw [heq] at hrange
        exact absurd hrange (by decide)
    · obtain ⟨c, rest, heq⟩ := List.exists_cons_of_ne_nil (isAlphanum_of_isScalarText value.2).1
      refine ⟨c, rest, heq, fun hmem => ?_⟩
      have hrange := hrange value c (heq ▸ List.mem_cons_self)
      simp only [List.mem_cons, List.not_mem_nil, or_false] at hmem
      rcases hmem with rfl | rfl | rfl | rfl <;> exact absurd hrange (by decide)
  zero := rfl
  reads := fun _ _ h => h
  ordered := fun _ _ h => ordered_readLine scalarText h

/-- Their readers read no table. -/
theorem tokenLibraries_single : ∀ reads ∈ tokenLibraries.readers.single, ReadsSingly reads := by
  intro reads hreads entries hentries
  simp only [Readers.single, tokenLibraries, List.mem_cons, List.not_mem_nil, or_false] at hreads
  rcases hreads with rfl | rfl | rfl | rfl | rfl | rfl | rfl | rfl | rfl | rfl | rfl | rfl | rfl <;> cases hentries

/-- Options of both kinds, with a quoted key, escapes, an empty table and a path, reach a child. -/
theorem options_reach_child_sample : ∃ options text, Options.new tokenLibraries
      (some "apps.\"a b\".command=\"x=\\\"y\\\"\\u000A\"") ["harness=\x7blog=\x7bdir=\"~/logs\"\x7d\x7d",
        "apps.e=\x7b\x7d"] = .ok options ∧
    options.toVariable Subtype.val homeSurroundings (bytes "/work") none = .ok (some text) ∧
    ∃ merged table child, options.merged = some merged ∧
      leaving homeSurroundings (bytes "/work") none merged = .ok table ∧
      Options.new tokenLibraries (some text) [] = .ok child ∧ child.merged = some table ∧
      Stands (leavingKeys homeSurroundings (bytes "/work") none) merged table := by
  have hsome : ((Options.new tokenLibraries (some "apps.\"a b\".command=\"x=\\\"y\\\"\\u000A\"")
      ["harness=\x7blog=\x7bdir=\"~/logs\"\x7d\x7d", "apps.e=\x7b\x7d"]).toOption.bind fun options =>
      (options.toVariable Subtype.val homeSurroundings (bytes "/work") none).toOption.join).isSome = true := by
    decide +kernel
  cases hnew : Options.new tokenLibraries (some "apps.\"a b\".command=\"x=\\\"y\\\"\\u000A\"")
      ["harness=\x7blog=\x7bdir=\"~/logs\"\x7d\x7d", "apps.e=\x7b\x7d"] with
  | error reason =>
    rw [hnew] at hsome
    cases hsome
  | ok options =>
    rw [hnew] at hsome
    cases hvariable : options.toVariable Subtype.val homeSurroundings (bytes "/work") none with
    | error reason =>
      simp [hvariable, Except.toOption] at hsome
    | ok found =>
      cases found with
      | none => simp [hvariable, Except.toOption] at hsome
      | some text =>
        exact ⟨options, text, rfl, hvariable,
          options_reach_child tokenLibraries_followsToml tokenLibraries_single hnew hvariable⟩

end Sample

end Devkit.Config
