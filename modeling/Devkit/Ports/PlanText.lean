import Devkit.Ports.Plan
import Mathlib.Data.List.Forall2

/-!
# When two plans have the same lines

A line names its field, and a quoted text ends where its quotes do, so lines tell a plan apart from others
but in two places: a list of servers is joined without quotes, and a variable's name runs into its template.
-/

namespace Devkit.Ports

open Devkit.Library

section Split

variable {A : Type*}

/-- Two lists cut where a test first holds are the same piece by piece. -/
theorem append_cancel_of_head {p : A → Bool} {first other rest left : List A} (hfirst : ∀ a ∈ first, p a = false)
    (hother : ∀ a ∈ other, p a = false) (hrest : ∀ a ∈ rest.head?, p a = true) (hleft : ∀ a ∈ left.head?, p a = true)
    (h : first ++ rest = other ++ left) : first = other ∧ rest = left := by
  have hcut : ∀ first rest : List A, (∀ a ∈ first, p a = false) → (∀ a ∈ rest.head?, p a = true) →
      (first ++ rest).takeWhile (fun a => !p a) = first := by
    intro first rest hfirst hrest
    rw [List.takeWhile_append_of_pos fun a ha => by rw [hfirst a ha]; rfl]
    cases rest with
    | nil => exact List.append_nil first
    | cons a rest => rw [List.takeWhile_cons_of_neg (by rw [hrest a rfl]; exact nofun), List.append_nil]
  have hsame := congrArg (List.takeWhile fun a => !p a) h
  rw [hcut first rest hfirst hrest, hcut other left hother hleft] at hsame
  subst hsame
  exact ⟨rfl, List.append_cancel_left h⟩

/-- Lists that differ at a place inside both starts differ. -/
theorem append_ne {first other : List A} (i : ℕ) (hfirst : i < first.length) (hother : i < other.length)
    (hne : first[i]? ≠ other[i]?) (rest left : List A) : first ++ rest ≠ other ++ left := by
  intro h
  have hplace : (first ++ rest)[i]? = (other ++ left)[i]? := by rw [h]
  rw [List.getElem?_append_left hfirst, List.getElem?_append_left hother] at hplace
  exact hne hplace

end Split

section Json

/-- The value of a lower-case hexadecimal digit. -/
def jsonDigitValue (c : Char) : ℕ := if c.toNat < 'a'.toNat then c.toNat - '0'.toNat else c.toNat - 'a'.toNat + 10

/-- The first character of a JSON string's inside, and what follows it. -/
def readJsonChar : List Char → Option (Char × List Char)
  | '\\' :: 'u' :: _ :: _ :: high :: low :: rest =>
    some (Char.ofNat (jsonDigitValue high * 16 + jsonDigitValue low), rest)
  | '\\' :: 'b' :: rest => some (Char.ofNat 0x08, rest)
  | '\\' :: 't' :: rest => some (Char.ofNat 0x09, rest)
  | '\\' :: 'n' :: rest => some (Char.ofNat 0x0a, rest)
  | '\\' :: 'f' :: rest => some (Char.ofNat 0x0c, rest)
  | '\\' :: 'r' :: rest => some (Char.ofNat 0x0d, rest)
  | '\\' :: c :: rest => some (c, rest)
  | '"' :: _ => none
  | c :: rest => some (c, rest)
  | [] => none

/-- A digit is read as its value. -/
theorem jsonDigitValue_jsonDigit {n : ℕ} (hn : n < 16) : jsonDigitValue (jsonDigit n) = n := by
  have hall : ∀ n < 16, jsonDigitValue (jsonDigit n) = n := by decide
  exact hall n hn

/-- A spelled character is read back. -/
theorem readJsonChar_jsonChar (c : Char) (rest : List Char) : readJsonChar (jsonChar c ++ rest) = some (c, rest) := by
  have hcode : ∀ {n : ℕ}, c.toNat = n → c = Char.ofNat n := fun h => by rw [← h, Char.ofNat_toNat]
  rw [jsonChar]
  split
  · rename_i h
    rw [h]
    rfl
  · rename_i hquote
    split
    · rename_i h
      rw [h]
      rfl
    · rename_i hslash
      split
      · rename_i h
        rw [hcode h]
        rfl
      · split
        · rename_i h
          rw [hcode h]
          rfl
        · split
          · rename_i h
            rw [hcode h]
            rfl
          · split
            · rename_i h
              rw [hcode h]
              rfl
            · split
              · rename_i h
                rw [hcode h]
                rfl
              · split
                · rename_i hsmall
                  change some (Char.ofNat (jsonDigitValue (jsonDigit (c.toNat / 16)) * 16 +
                    jsonDigitValue (jsonDigit (c.toNat % 16))), rest) = _
                  rw [jsonDigitValue_jsonDigit (by omega), jsonDigitValue_jsonDigit (by omega), Nat.div_add_mod',
                    Char.ofNat_toNat]
                · rw [List.singleton_append, readJsonChar]
                  all_goals intros; simp_all

/-- A quote in a spelled character follows a backslash. -/
theorem quote_in_jsonChar {c : Char} {before after : List Char} (h : jsonChar c = before ++ '"' :: after) :
    before.getLast? = some '\\' := by
  have hmem : '"' ∈ jsonChar c := h ▸ List.mem_append_right _ List.mem_cons_self
  have hdigit : ∀ n < 16, '"' ≠ jsonDigit n := by decide
  have hc : c = '"' := by
    by_contra hne
    revert hmem
    rw [jsonChar, if_neg hne]
    repeat' split
    all_goals simp only [List.mem_cons, List.not_mem_nil, or_false]
    any_goals decide
    · rintro (heq | heq | heq | heq | heq | heq)
      · exact absurd heq (by decide)
      · exact absurd heq (by decide)
      · exact absurd heq (by decide)
      · exact absurd heq (by decide)
      · exact hdigit _ (by omega) heq
      · exact hdigit _ (by omega) heq
    · exact fun heq => hne heq.symm
  rw [hc, jsonChar, if_pos rfl] at h
  match before, h with
  | [], h => cases h
  | [c], h => exact congrArg some (List.cons.inj h).1.symm
  | _ :: _ :: before, h =>
    have hlength := congrArg List.length h
    simp at hlength

/-- Of a spelled text every quote follows a backslash. -/
theorem quote_in_spelled {text before after : List Char} (h : text.flatMap jsonChar = before ++ '"' :: after) :
    before.getLast? = some '\\' := by
  induction text generalizing before with
  | nil => cases before <;> cases h
  | cons c text ih =>
    rw [List.flatMap_cons] at h
    rcases List.append_eq_append_iff.mp h with ⟨more, hbefore, hmore⟩ | ⟨more, hchar, hmore⟩
    · have hlast := ih hmore
      rw [hbefore, List.getLast?_append, hlast]
      rfl
    · cases more with
      | nil =>
        rw [List.append_nil] at hchar
        have hlast : ([] : List Char).getLast? = some '\\' := ih hmore.symm
        cases hlast
      | cons d more =>
        obtain ⟨rfl, _⟩ := List.cons.inj hmore
        exact quote_in_jsonChar hchar

/-- A quote inside a JSON string follows a backslash. -/
theorem quote_in_jsonString {text : String} {before after : List Char} (hbefore : before ≠ []) (hafter : after ≠ [])
    (h : jsonString text = before ++ '"' :: after) : before.getLast? = some '\\' := by
  obtain ⟨c, before, rfl⟩ := List.exists_cons_of_ne_nil hbefore
  obtain ⟨after, d, rfl⟩ := List.eq_nil_or_concat after |>.resolve_left hafter
  obtain ⟨rfl, hinside⟩ := List.cons.inj h
  have hsplit : text.toList.flatMap jsonChar ++ ['"'] = (before ++ '"' :: after) ++ [d] := by
    rw [hinside, List.append_assoc, List.cons_append, List.concat_eq_append]
    rfl
  have hlast := quote_in_spelled (List.append_inj' hsplit rfl).1
  rw [List.getLast?_cons, hlast]
  rfl

/-- A JSON string ends where it ends. -/
theorem jsonString_cancel {text other : String} {rest left : List Char}
    (h : jsonString text ++ rest = jsonString other ++ left) : text = other ∧ rest = left := by
  have hinside : ∀ text other : List Char,
      text.flatMap jsonChar ++ '"' :: rest = other.flatMap jsonChar ++ '"' :: left →
        text = other ∧ rest = left := by
    intro text
    induction text with
    | nil =>
      intro other h
      cases other with
      | nil => exact ⟨rfl, (List.cons.inj h).2⟩
      | cons d other =>
        have hread := congrArg readJsonChar h
        rw [List.flatMap_cons, List.append_assoc, readJsonChar_jsonChar] at hread
        cases hread
    | cons c text ih =>
      intro other h
      have hread := congrArg readJsonChar h
      rw [List.flatMap_cons, List.append_assoc, readJsonChar_jsonChar] at hread
      cases other with
      | nil => cases hread
      | cons d other =>
        rw [List.flatMap_cons, List.append_assoc, readJsonChar_jsonChar] at hread
        obtain ⟨rfl, hrest⟩ := Prod.mk.inj (Option.some.inj hread)
        obtain ⟨rfl, hleft⟩ := ih other hrest
        exact ⟨rfl, hleft⟩
  rw [jsonString, jsonString, List.cons_append, List.cons_append, List.append_assoc, List.append_assoc] at h
  obtain ⟨htext, hrest⟩ := hinside _ _ (List.cons.inj h).2
  exact ⟨String.toList_inj.mp htext, hrest⟩

/-- A quoted list tells its texts. -/
theorem quoted_inj {argv other : List String} (h : quoted argv = quoted other) : argv = other := by
  have hitems : ∀ argv other : List String, [','].intercalate (argv.map jsonString) ++ [']'] =
      [','].intercalate (other.map jsonString) ++ [']'] → argv = other := by
    intro argv
    induction argv with
    | nil =>
      intro other h
      match other, h with
      | [], _ => rfl
      | [_], h => cases h
      | _ :: _ :: _, h => cases h
    | cons text argv ih =>
      intro other h
      match argv, other, h with
      | [], [], h => cases h
      | _ :: _, [], h => cases h
      | [], [_], h =>
        rw [List.map_singleton, List.map_singleton, List.intercalate_singleton, List.intercalate_singleton] at h
        rw [(jsonString_cancel h).1]
      | next :: argv, first :: second :: other, h =>
        rw [List.map_cons, List.map_cons, List.intercalate_cons_cons, List.map_cons, List.map_cons,
          List.intercalate_cons_cons, List.append_assoc, List.append_assoc, List.append_assoc, List.append_assoc] at h
        obtain ⟨rfl, hrest⟩ := jsonString_cancel h
        rw [ih (second :: other) (List.cons.inj hrest).2]
      | [], first :: second :: other, h =>
        rw [List.map_singleton, List.intercalate_singleton, List.map_cons, List.map_cons, List.intercalate_cons_cons,
          List.append_assoc, List.append_assoc] at h
        cases (jsonString_cancel h).2
      | next :: argv, [first], h =>
        rw [List.map_singleton, List.intercalate_singleton, List.map_cons, List.map_cons, List.intercalate_cons_cons,
          List.append_assoc, List.append_assoc] at h
        cases (jsonString_cancel h).2
  rw [quoted, quoted] at h
  exact hitems argv other (List.cons.inj h).2

end Json

section Alike

/-- A variable without a template whose name is another's name, ` = ` and its quoted template. -/
def RunsInto (row other : String × PlannedEnv) : Prop :=
  row.2.template = none ∧ ∃ t, other.2.template = some t ∧
    row.1.toList = other.1.toList ++ (" = ".toList ++ jsonString t)

/-- Two variables have one line: they are the same, or the name of one runs into the other's template. -/
def RowAlike (row other : String × PlannedEnv) : Prop :=
  row.2.value = other.2.value ∧
    ((row.1 = other.1 ∧ row.2.template = other.2.template) ∨ RunsInto row other ∨ RunsInto other row)

/-- Two environments have variables with one line each. -/
def EnvAlike (env other : Environment) : Prop := List.Forall₂ RowAlike env.rows other.rows

/-- Server names as they are joined. -/
def joinedLive (requireLive : List String) : List Char := (", ".toList).intercalate (requireLive.map String.toList)

/-- Two launches differ at most in environments alike. -/
def LaunchAlike (launch other : PlannedLaunch) : Prop :=
  launch.app = other.app ∧ launch.port = other.port ∧ launch.argv = other.argv ∧ launch.cwd = other.cwd ∧
    EnvAlike launch.env other.env ∧ launch.url = other.url

/-- Two steps differ at most in environments alike and in how the servers required live are split. -/
def StepAlike : PlannedStep → PlannedStep → Prop
  | .run task app argv cwd env requireLive, .run task' app' argv' cwd' env' requireLive' =>
    task = task' ∧ app = app' ∧ argv = argv' ∧ cwd = cwd' ∧ EnvAlike env env' ∧
      requireLive.isEmpty = requireLive'.isEmpty ∧ joinedLive requireLive = joinedLive requireLive'
  | .up app launches, .up app' launches' => app = app' ∧ List.Forall₂ LaunchAlike launches launches'
  | _, _ => False

/-- Two plans accept the same callers and differ at most in steps alike. -/
def Alike (base head : ExecutionPlan) : Prop :=
  base.acceptsHuman = head.acceptsHuman ∧ base.acceptsAgent = head.acceptsAgent ∧
    List.Forall₂ StepAlike base.steps head.steps

/-- Variables have one line where they are alike. -/
theorem envText_eq_iff {row other : String × PlannedEnv} :
    envText row.1 row.2.template = envText other.1 other.2.template ↔
      (row.1 = other.1 ∧ row.2.template = other.2.template) ∨ RunsInto row other ∨ RunsInto other row := by
  -- Between two templates the longer name would hold the other's opening quote after a blank.
  have hshort : ∀ {key longer : List Char} {t t' : String}, key ++ (" = ".toList ++ jsonString t) =
      (key ++ longer) ++ (" = ".toList ++ jsonString t') → longer = [] := by
    intro key longer t t' h
    rw [List.append_assoc] at h
    have h := List.append_cancel_left h
    rw [← List.append_assoc] at h
    obtain ⟨inside, hinside, hquote⟩ : ∃ inside, longer ++ " = ".toList = " = ".toList ++ inside ∧
        jsonString t = inside ++ jsonString t' := by
      rcases List.append_eq_append_iff.mp h with hfound | ⟨more, hmore, _⟩
      · exact hfound
      · have hlength := congrArg List.length hmore
        rw [List.length_append, List.length_append] at hlength
        have hnone : more = [] := List.length_eq_zero_iff.mp (by omega)
        have hempty : longer = [] := List.length_eq_zero_iff.mp (by omega)
        subst hnone hempty
        exact ⟨[], by rw [List.append_nil, List.nil_append], List.append_cancel_left h⟩
    cases longer with
    | nil => rfl
    | cons c longer =>
      have hlength := congrArg List.length hinside
      rw [List.length_append, List.length_append, List.length_cons] at hlength
      have hsome : inside ≠ [] := fun hnil => by
        rw [hnil, List.length_nil] at hlength
        omega
      have hlast := quote_in_jsonString hsome (List.append_ne_nil_of_right_ne_nil _ (List.cons_ne_nil _ _)) hquote
      have hblank : inside.getLast? = some ' ' := by
        have hends := congrArg List.getLast? hinside
        rw [List.getLast?_append, List.getLast?_append] at hends
        obtain ⟨before, d, rfl⟩ := (List.eq_nil_or_concat inside).resolve_left hsome
        rw [List.concat_eq_append, List.getLast?_concat] at hends ⊢
        exact hends.symm
      rw [hblank] at hlast
      cases hlast
  have hboth : ∀ {key key' : String} {t t' : String}, key.toList ++ (" = ".toList ++ jsonString t) =
      key'.toList ++ (" = ".toList ++ jsonString t') → key = key' ∧ t = t' := by
    intro key key' t t' h
    have hkey : key.toList = key'.toList := by
      rcases List.append_eq_append_iff.mp h with ⟨longer, hlonger, _⟩ | ⟨longer, hlonger, _⟩
      · rw [hlonger] at h ⊢
        rw [hshort h, List.append_nil]
      · rw [hlonger] at h ⊢
        rw [hshort h.symm, List.append_nil]
    rw [hkey] at h
    have hjson := List.append_cancel_left (List.append_cancel_left h)
    exact ⟨String.toList_inj.mp hkey, (jsonString_cancel (congrArg (· ++ []) hjson)).1⟩
  obtain ⟨key, template, value⟩ := row
  obtain ⟨key', template', value'⟩ := other
  simp only [envText, RunsInto, List.append_assoc, List.append_cancel_left_eq]
  cases template with
  | none =>
    cases template' with
    | none => simp [String.toList_inj]
    | some t' => simp
  | some t =>
    cases template' with
    | none => simp [eq_comm]
    | some t' =>
      simp only [reduceCtorEq, false_and, or_false, Option.some.injEq]
      constructor
      · exact hboth
      · rintro ⟨rfl, rfl⟩
        rfl

/-- Environments have the same lines where they are alike. -/
theorem envLines_eq_iff {indent : List Char} {env other : Environment} :
    envLines indent env = envLines indent other ↔ EnvAlike env other := by
  rw [envLines, envLines, ← List.forall₂_eq_eq_eq, List.forall₂_map_left_iff, List.forall₂_map_right_iff, EnvAlike]
  refine iff_of_eq (congrArg (fun relation => List.Forall₂ relation env.rows other.rows) ?_)
  funext row other
  rw [PlanLine.mk.injEq, List.append_cancel_left_eq, envText_eq_iff, Option.some.injEq, and_comm]
  rfl

/-- An environment's lines have values behind them. -/
theorem secret_of_mem_envLines {indent : List Char} {env : Environment} {line : PlanLine}
    (h : line ∈ envLines indent env) :
    ∃ text, line.text = indent ++ text ∧ line.secret.isNone = false := by
  obtain ⟨row, _, rfl⟩ := List.mem_map.mp h
  exact ⟨_, rfl, rfl⟩

/-- A port's digits are its own. -/
theorem portDigits_inj {app app' : List Char} {port port' : UInt16}
    (h : app ++ (" on port ".toList ++ Nat.toDigits 10 port.toNat) =
      app' ++ (" on port ".toList ++ Nat.toDigits 10 port'.toNat)) : app = app' ∧ port = port' := by
  have hdigit : ∀ n, ∀ c ∈ (Nat.toDigits 10 n).reverse, (c == ' ') = false := by
    intro n c hc
    have hdigit := Nat.isDigit_of_mem_toDigits (by omega) (Nat.le_refl 10) (List.mem_reverse.mp hc)
    refine beq_eq_false_iff_ne.mpr ?_
    rintro rfl
    cases hdigit
  have hreverse := congrArg List.reverse h
  have hsides : ∀ (app : List Char) (n : ℕ), (app ++ (" on port ".toList ++ Nat.toDigits 10 n)).reverse =
      (Nat.toDigits 10 n).reverse ++ (app ++ " on port ".toList).reverse := by
    intro app n
    rw [← List.append_assoc, List.reverse_append]
  rw [hsides, hsides] at hreverse
  have hhead : ∀ app : List Char, ∀ c ∈ (app ++ " on port ".toList).reverse.head?, (c == ' ') = true := by
    intro app c hc
    rw [List.reverse_append] at hc
    obtain rfl := Option.some.inj hc
    rfl
  obtain ⟨hports, happs⟩ := append_cancel_of_head (hdigit _) (hdigit _) (hhead app) (hhead app') hreverse
  have hport := congrArg (fun digits => Nat.ofDigitChars 10 digits 0) (List.reverse_inj.mp hports)
  rw [Nat.ofDigitChars_ten_toDigits, Nat.ofDigitChars_ten_toDigits] at hport
  exact ⟨List.append_cancel_right (List.reverse_inj.mp happs), UInt16.toNat_inj.mp hport⟩

/-- Plain lines are the same where their texts are. -/
theorem plain_inj {text other : List Char} : plain text = plain other ↔ text = other := by
  rw [plain, plain, PlanLine.mk.injEq, and_iff_left rfl]

/-- Launches have the same lines where they are alike. -/
theorem launchLines_eq_iff {launch other : PlannedLaunch} :
    launchLines launch = launchLines other ↔ LaunchAlike launch other := by
  have hurl : ∀ url : List Char, ∀ line ∈ [plain ("    url: ".toList ++ url)].head?, line.secret.isNone = true := by
    intro url line hline
    obtain rfl := Option.some.inj hline
    rfl
  have henv : ∀ env, ∀ line ∈ envLines "    ".toList env, line.secret.isNone = false := fun env line hline =>
    (secret_of_mem_envLines hline).choose_spec.2
  rw [launchLines, launchLines, LaunchAlike]
  simp only [List.append_assoc, List.cons_append, List.nil_append, List.cons.injEq, plain_inj,
    List.append_cancel_left_eq]
  constructor
  · rintro ⟨hlaunch, hargv, hcwd, hrest⟩
    obtain ⟨happ, hport⟩ := portDigits_inj hlaunch
    obtain ⟨hlines, hlast⟩ := append_cancel_of_head (henv _) (henv _) (hurl _) (hurl _) hrest
    have hlast := List.append_cancel_left (plain_inj.mp (List.cons.inj hlast).1)
    exact ⟨String.toList_inj.mp happ, hport, quoted_inj hargv, String.toList_inj.mp hcwd, envLines_eq_iff.mp hlines,
      String.toList_inj.mp hlast⟩
  · rintro ⟨happ, hport, hargv, hcwd, halike, hurl⟩
    rw [happ, hport, hargv, hcwd, envLines_eq_iff.mpr halike, hurl]
    exact ⟨rfl, rfl, rfl, rfl⟩

/-- A launch's lines are its header and lines indented further. -/
theorem launchLines_head (launch : PlannedLaunch) : ∃ header rest, launchLines launch = header :: rest ∧
    header.text.head? = some ' ' ∧ (header.text[2]? == some 'l') = true ∧
      ∀ line ∈ rest, line.text.head? = some ' ' ∧ (line.text[2]? == some 'l') = false := by
  refine ⟨_, _, rfl, rfl, rfl, fun line hline => ?_⟩
  change line ∈ plain _ :: plain _ :: (envLines "    ".toList launch.env ++ [plain _]) at hline
  rw [List.mem_cons, List.mem_cons, List.mem_append, List.mem_singleton] at hline
  rcases hline with rfl | rfl | hline | rfl
  · exact ⟨rfl, rfl⟩
  · exact ⟨rfl, rfl⟩
  · obtain ⟨text, htext, _⟩ := secret_of_mem_envLines hline
    rw [htext]
    exact ⟨rfl, rfl⟩
  · exact ⟨rfl, rfl⟩

/-- Lists of launches have the same lines where their launches are alike. -/
theorem flatMap_launchLines_eq_iff {launches others : List PlannedLaunch} :
    launches.flatMap launchLines = others.flatMap launchLines ↔ List.Forall₂ LaunchAlike launches others := by
  have hstart : ∀ launches : List PlannedLaunch, ∀ line ∈ (launches.flatMap launchLines).head?,
      (line.text[2]? == some 'l') = true := by
    intro launches line hline
    cases launches with
    | nil => cases hline
    | cons launch rest =>
      obtain ⟨header, lines, hlines, _, hheader, _⟩ := launchLines_head launch
      rw [List.flatMap_cons, hlines] at hline
      obtain rfl := Option.some.inj hline
      exact hheader
  induction launches generalizing others with
  | nil =>
    cases others with
    | nil => exact iff_of_true rfl .nil
    | cons other others => exact iff_of_false nofun nofun
  | cons launch launches ih =>
    cases others with
    | nil => exact iff_of_false nofun nofun
    | cons other others =>
      rw [List.flatMap_cons, List.flatMap_cons, List.forall₂_cons]
      refine Iff.trans ?_ (and_congr launchLines_eq_iff ih)
      refine ⟨fun h => ?_, fun ⟨hfirst, hrest⟩ => by rw [hfirst, hrest]⟩
      obtain ⟨header, lines, hlines, _, _, hrest⟩ := launchLines_head launch
      obtain ⟨header', lines', hlines', _, _, hrest'⟩ := launchLines_head other
      rw [hlines, hlines', List.cons_append, List.cons_append] at h
      obtain ⟨rfl, hbelow⟩ := List.cons.inj h
      obtain ⟨rfl, hothers⟩ := append_cancel_of_head (fun line hline => (hrest line hline).2)
        (fun line hline => (hrest' line hline).2) (hstart launches) (hstart others) hbelow
      exact ⟨hlines.trans hlines'.symm, hothers⟩

/-- A step's lines are its header and lines indented. -/
theorem stepLines_head (n : ℕ) (step : PlannedStep) : ∃ header rest, stepLines n step = header :: rest ∧
    (header.text.head? == some 's') = true ∧ ∀ line ∈ rest, (line.text.head? == some 's') = false := by
  have henv : ∀ env, ∀ line ∈ envLines "  ".toList env, (line.text.head? == some 's') = false := by
    intro env line hline
    obtain ⟨text, htext, _⟩ := secret_of_mem_envLines hline
    rw [htext]
    rfl
  cases step with
  | run task app argv cwd env requireLive =>
    refine ⟨_, _, rfl, rfl, fun line hline => ?_⟩
    have hrest := List.mem_append.mp hline
    rcases hrest with hrest | hlive
    · rcases List.mem_append.mp hrest with hrest | henvironment
      · rcases List.mem_append.mp hrest with happ | hcommand
        · cases app with
          | none => cases happ
          | some app =>
            obtain rfl := List.mem_singleton.mp happ
            rfl
        · rw [List.mem_cons, List.mem_singleton] at hcommand
          rcases hcommand with rfl | rfl
          · rfl
          · rfl
      · exact henv env line henvironment
    · split at hlive
      · cases hlive
      · obtain rfl := List.mem_singleton.mp hlive
        rfl
  | up app launches =>
    refine ⟨_, _, rfl, rfl, fun line hline => ?_⟩
    obtain ⟨launch, _, hline⟩ := List.mem_flatMap.mp hline
    obtain ⟨header, rest, hlines, hheader, _, hrest⟩ := launchLines_head launch
    rw [hlines, List.mem_cons] at hline
    cases hline with
    | inl heq =>
      rw [heq, hheader]
      rfl
    | inr hmem =>
      rw [(hrest line hmem).1]
      rfl

/-- The lines of a command step. -/
theorem stepLines_run (n : ℕ) (task : String) (app : Option String) (argv : List String) (cwd : String)
    (env : Environment)
    (requireLive : List String) : stepLines n (.run task app argv cwd env requireLive) =
    plain ("step ".toList ++ (Nat.toDigits 10 n ++ (": task ".toList ++ task.toList))) ::
      ((match app with
        | some app => [plain ("  app: ".toList ++ app.toList)]
        | none => []) ++
      ([plain ("  argv: ".toList ++ quoted argv), plain ("  cwd: ".toList ++ cwd.toList)] ++
        (envLines "  ".toList env ++ if requireLive.isEmpty then []
          else [plain ("  require_live: ".toList ++ joinedLive requireLive)]))) := by
  have hheader : "step ".toList ++ Nat.toDigits 10 n ++ ": task ".toList ++ task.toList =
      "step ".toList ++ (Nat.toDigits 10 n ++ (": task ".toList ++ task.toList)) := by
    rw [List.append_assoc, List.append_assoc]
  rw [stepLines.eq_def]
  dsimp only
  rw [hheader, List.append_assoc, List.append_assoc, List.cons_append]
  rfl

/-- Steps at one place have the same lines where they are alike. -/
theorem stepLines_eq_iff {n : ℕ} {step other : PlannedStep} :
    stepLines n step = stepLines n other ↔ StepAlike step other := by
  have hdiffer : ∀ (task app : List Char), "step ".toList ++ (Nat.toDigits 10 n ++ (": task ".toList ++ task)) ≠
      "step ".toList ++ (Nat.toDigits 10 n ++ (": up ".toList ++ app)) := by
    intro task app h
    exact append_ne 2 (by decide) (by decide) (by decide) task app (List.append_cancel_left (List.append_cancel_left h))
  cases step with
  | up app launches =>
    cases other with
    | up app' launches' =>
      rw [stepLines, stepLines, List.cons.injEq, plain_inj, List.append_assoc, List.append_assoc, List.append_assoc,
        List.append_assoc, flatMap_launchLines_eq_iff]
      simp only [List.append_cancel_left_eq, String.toList_inj]
      rfl
    | run task' app' argv' cwd' env' requireLive' =>
      refine iff_of_false (fun h => ?_) id
      have hheader := plain_inj.mp (List.cons.inj h).1
      rw [List.append_assoc, List.append_assoc, List.append_assoc, List.append_assoc] at hheader
      exact hdiffer _ _ hheader.symm
  | run task app argv cwd env requireLive =>
    cases other with
    | up app' launches' =>
      refine iff_of_false (fun h => ?_) id
      have hheader := plain_inj.mp (List.cons.inj h).1
      rw [List.append_assoc, List.append_assoc, List.append_assoc, List.append_assoc] at hheader
      exact hdiffer _ _ hheader
    | run task' app' argv' cwd' env' requireLive' =>
      have henv : ∀ env, ∀ line ∈ envLines "  ".toList env, line.secret.isNone = false := fun env line hline =>
        (secret_of_mem_envLines hline).choose_spec.2
      have hlive : ∀ requireLive : List String, ∀ line ∈ (if requireLive.isEmpty then []
          else [plain ("  require_live: ".toList ++ joinedLive requireLive)]).head?, line.secret.isNone = true := by
        intro requireLive line hline
        split at hline
        · cases hline
        · obtain rfl := Option.some.inj hline
          rfl
      have hlast : ∀ requireLive requireLive' : List String,
          ((if requireLive.isEmpty then [] else [plain ("  require_live: ".toList ++ joinedLive requireLive)]) =
            if requireLive'.isEmpty then [] else [plain ("  require_live: ".toList ++ joinedLive requireLive')]) ↔
          requireLive.isEmpty = requireLive'.isEmpty ∧ joinedLive requireLive = joinedLive requireLive' := by
        intro requireLive requireLive'
        cases hfirst : requireLive.isEmpty with
        | true =>
          cases hsecond : requireLive'.isEmpty with
          | true =>
            rw [List.isEmpty_iff.mp hfirst, List.isEmpty_iff.mp hsecond]
            exact iff_of_true rfl ⟨rfl, rfl⟩
          | false => exact iff_of_false (fun heq => List.cons_ne_nil _ _ heq.symm) fun hboth => absurd hboth.1.symm Bool.false_ne_true
        | false =>
          cases hsecond : requireLive'.isEmpty with
          | true => exact iff_of_false (List.cons_ne_nil _ _) fun hboth => absurd hboth.1 Bool.false_ne_true
          | false => simp [plain_inj]
      have hbody : ([plain ("  argv: ".toList ++ quoted argv), plain ("  cwd: ".toList ++ cwd.toList)] ++
            (envLines "  ".toList env ++ if requireLive.isEmpty then []
              else [plain ("  require_live: ".toList ++ joinedLive requireLive)]) =
          [plain ("  argv: ".toList ++ quoted argv'), plain ("  cwd: ".toList ++ cwd'.toList)] ++
            (envLines "  ".toList env' ++ if requireLive'.isEmpty then []
              else [plain ("  require_live: ".toList ++ joinedLive requireLive')])) ↔
          argv = argv' ∧ cwd = cwd' ∧ EnvAlike env env' ∧ requireLive.isEmpty = requireLive'.isEmpty ∧
            joinedLive requireLive = joinedLive requireLive' := by
        simp only [List.cons_append, List.nil_append, List.cons.injEq, plain_inj, List.append_cancel_left_eq,
          String.toList_inj]
        constructor
        · rintro ⟨hargv, hcwd, hrest⟩
          obtain ⟨hlines, hlives⟩ := append_cancel_of_head (henv _) (henv _) (hlive _) (hlive _) hrest
          exact ⟨quoted_inj hargv, hcwd, envLines_eq_iff.mp hlines, (hlast _ _).mp hlives⟩
        · rintro ⟨hargv, hcwd, halike, hlives⟩
          rw [hargv, hcwd, envLines_eq_iff.mpr halike, (hlast _ _).mpr hlives]
          exact ⟨rfl, rfl, rfl⟩
      have happ : ∀ (app rest : List Char), "  app: ".toList ++ app ≠ "  argv: ".toList ++ rest := fun app rest =>
        append_ne 3 (by decide) (by decide) (by decide) app rest
      rw [stepLines_run, stepLines_run, List.cons.injEq, plain_inj, StepAlike]
      simp only [List.append_cancel_left_eq, String.toList_inj]
      refine and_congr_right fun _ => ?_
      cases app with
      | none =>
        cases app' with
        | none => exact hbody.trans (and_iff_right rfl).symm
        | some app' =>
          refine iff_of_false (fun h => ?_) fun hboth => absurd hboth.1.symm (Option.some_ne_none _)
          exact happ _ _ (plain_inj.mp (List.cons.inj h).1).symm
      | some app =>
        cases app' with
        | none =>
          refine iff_of_false (fun h => ?_) fun hboth => absurd hboth.1 (Option.some_ne_none _)
          exact happ _ _ (plain_inj.mp (List.cons.inj h).1)
        | some app' =>
          have hcons : ∀ (line other : PlanLine) (rest left : List PlanLine),
              [line] ++ rest = [other] ++ left ↔ line = other ∧ rest = left := fun _ _ _ _ => List.cons_eq_cons
          refine (hcons _ _ _ _).trans (and_congr ?_ hbody)
          rw [plain_inj, List.append_cancel_left_eq, String.toList_inj, Option.some.injEq]

/-- The steps from one on have the same lines where they are alike. -/
theorem stepsLines_eq_iff {n : ℕ} {steps others : List PlannedStep} :
    stepsLines n steps = stepsLines n others ↔ List.Forall₂ StepAlike steps others := by
  have hstart : ∀ n steps, ∀ line ∈ (stepsLines n steps).head?, (line.text.head? == some 's') = true := by
    intro n steps line hline
    cases steps with
    | nil => cases hline
    | cons step rest =>
      obtain ⟨header, lines, hlines, hheader, _⟩ := stepLines_head n step
      rw [stepsLines, hlines] at hline
      obtain rfl := Option.some.inj hline
      exact hheader
  have hsome : ∀ n step rest, stepLines n step ++ rest ≠ [] := by
    intro n step rest
    obtain ⟨header, lines, hlines, _⟩ := stepLines_head n step
    rw [hlines]
    exact List.cons_ne_nil _ _
  induction steps generalizing n others with
  | nil =>
    cases others with
    | nil => exact iff_of_true rfl .nil
    | cons other others => exact iff_of_false (fun h => hsome _ _ _ h.symm) nofun
  | cons step steps ih =>
    cases others with
    | nil => exact iff_of_false (fun h => hsome _ _ _ h) nofun
    | cons other others =>
      rw [stepsLines, stepsLines, List.forall₂_cons]
      refine Iff.trans ?_ (and_congr (stepLines_eq_iff (n := n)) (ih (n := n + 1)))
      refine ⟨fun h => ?_, fun ⟨hfirst, hrest⟩ => by rw [hfirst, hrest]⟩
      obtain ⟨header, lines, hlines, _, hrest⟩ := stepLines_head n step
      obtain ⟨header', lines', hlines', _, hrest'⟩ := stepLines_head n other
      rw [hlines, hlines', List.cons_append, List.cons_append] at h
      obtain ⟨rfl, hbelow⟩ := List.cons.inj h
      obtain ⟨rfl, hothers⟩ := append_cancel_of_head hrest hrest' (hstart _ steps) (hstart _ others) hbelow
      exact ⟨hlines.trans hlines'.symm, hothers⟩

/-- Plans have the same lines where they are alike. -/
theorem lines_eq_iff {base head : ExecutionPlan} : base.lines = head.lines ↔ Alike base head := by
  obtain ⟨human, agent, steps⟩ := base
  obtain ⟨human', agent', steps'⟩ := head
  have haccepts : acceptsLine human agent = acceptsLine human' agent' ↔ human = human' ∧ agent = agent' := by
    cases human <;> cases agent <;> cases human' <;> cases agent' <;> decide
  rw [ExecutionPlan.lines, ExecutionPlan.lines, List.cons.injEq, haccepts, stepsLines_eq_iff, and_assoc]
  rfl

end Alike

end Devkit.Ports
