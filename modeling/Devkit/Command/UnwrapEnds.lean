import Devkit.Command.Unwrap
import Mathlib.Logic.Relation

/-!
# Unwrapping ends and keeps the words

The stripping of a command ends with a result unless it comes to `xargs` whose last word is a flag that lacks its
value, in the command, in an action of `find` or in source embedded in one. What it comes to is what a machine comes
to that has the stripping under way and what waits for it. Where only wrappers are stripped, their words and those left
are the words of the command.
-/

namespace Devkit.Command

open Relation (ReflTransGen)

/-- The words are options of which the last one lacks its value. -/
inductive EndsOpen (valueFlags : List String) : List Word → Prop
  | last {word : Word} {flag : String} : known word.value = some flag → flag ∈ valueFlags →
      EndsOpen valueFlags [word]
  | value {word next : Word} {flag : String} {rest : List Word} : known word.value = some flag → flag ∈ valueFlags →
      EndsOpen valueFlags rest → EndsOpen valueFlags (word :: next :: rest)
  | option {word : Word} {text : String} {rest : List Word} : known word.value = some text →
      startsWith text "-" = true → text ≠ "--" → text ∉ valueFlags → EndsOpen valueFlags rest →
      EndsOpen valueFlags (word :: rest)

/-- The words are assignments and then `xargs` with options of which the last one lacks its value. -/
def OpenXargs (argv : List Word) : Prop :=
  ∃ head rest, argv.dropWhile isAssignment = head :: rest ∧ programName head = some "xargs" ∧
    EndsOpen xargsValueFlags rest

/-- The words are those of `doppler run` with a command given as text. -/
def GivesText (argv : List Word) : Prop :=
  argv.head?.bind programName = some "doppler" ∧ (∃ word, argv[1]? = some word ∧ known word.value = some "run") ∧
    (∀ word ∈ argv, endsOptions word = false) ∧ ∃ word ∈ argv, isCommandFlag word = true

/-- An assignment, `xargs` or a command given as text is what a turn comes to. -/
def Involves (argv : List Word) : Prop :=
  (∃ word, argv.head? = some word ∧ isAssignment word = true) ∨ argv.head?.bind programName = some "xargs" ∨
    GivesText argv

section Turns

variable (grammar : Grammar) (style : PathStyle)

/-- A turn strips something. -/
def Strips (s s' : Stripping) : Prop := s.turn grammar style = .next s'

end Turns

variable {grammar : Grammar} {style : PathStyle} {s s' : Stripping}

theorem not_endsOpen_nil {valueFlags : List String} : ¬ EndsOpen valueFlags [] := by
  intro h
  cases h

/-- What the first of the options is where the last one lacks its value. -/
theorem endsOpen_cons {valueFlags : List String} {word : Word} {rest : List Word} :
    EndsOpen valueFlags (word :: rest) ↔ ∃ text, known word.value = some text ∧
      ((text ∈ valueFlags ∧ (rest = [] ∨ ∃ next more, rest = next :: more ∧ EndsOpen valueFlags more)) ∨
        (text ∉ valueFlags ∧ startsWith text "-" = true ∧ text ≠ "--" ∧ EndsOpen valueFlags rest)) := by
  constructor
  · intro h
    cases h with
    | last hknown hflag => exact ⟨_, hknown, Or.inl ⟨hflag, Or.inl rfl⟩⟩
    | value hknown hflag hrest => exact ⟨_, hknown, Or.inl ⟨hflag, Or.inr ⟨_, _, rfl, hrest⟩⟩⟩
    | option hknown hstart hother hflag hrest => exact ⟨_, hknown, Or.inr ⟨hflag, hstart, hother, hrest⟩⟩
  · intro h
    obtain ⟨text, hknown, ⟨hflag, rfl | ⟨next, more, rfl, hmore⟩⟩ | ⟨hflag, hstart, hother, hrest⟩⟩ := h
    · exact .last hknown hflag
    · exact .value hknown hflag hmore
    · exact .option hknown hstart hother hflag hrest

/-- The position behind the options is past the words exactly when the last one lacks its value. -/
theorem lt_skipOptions_iff {valueFlags : List String}
    (hflags : ∀ flag ∈ valueFlags, startsWith flag "-" = true ∧ flag ≠ "--") (i : ℕ) (replace : Bool)
    (words : List Word) : i + words.length < (skipOptions valueFlags i replace words).1 ↔ EndsOpen valueFlags words := by
  fun_induction skipOptions valueFlags i replace words with
  | case1 i replace => exact iff_of_false (Nat.lt_irrefl _) not_endsOpen_nil
  | case2 i replace word rest hnone =>
    refine iff_of_false (by omega) fun h => ?_
    obtain ⟨text, htext, _⟩ := endsOpen_cons.mp h
    exact Option.some_ne_none text (htext.symm.trans hnone)
  | case3 i replace word rest text htext hother =>
    refine iff_of_false (by omega) fun h => ?_
    obtain ⟨other, hknown, hcases⟩ := endsOpen_cons.mp h
    obtain rfl := Option.some.inj (htext.symm.trans hknown)
    rw [Bool.not_eq_true'] at hother
    rcases hcases with ⟨hflag, _⟩ | ⟨_, hstart, _⟩
    · exact Bool.noConfusion (hother.symm.trans (hflags text hflag).1)
    · exact Bool.noConfusion (hother.symm.trans hstart)
  | case4 i replace word rest htext hstart =>
    refine iff_of_false (by rw [List.length_cons]; omega) fun h => ?_
    obtain ⟨other, hknown, hcases⟩ := endsOpen_cons.mp h
    obtain rfl := Option.some.inj (htext.symm.trans hknown)
    rcases hcases with ⟨hflag, _⟩ | ⟨_, _, hother, _⟩
    · exact (hflags _ hflag).2 rfl
    · exact hother rfl
  | case5 i replace word rest text htext hstart hother replace' hflag ih =>
    have hmem : text ∈ valueFlags := List.contains_iff_mem.mp hflag
    rw [endsOpen_cons]
    cases rest with
    | nil =>
      refine iff_of_true ?_ ⟨text, htext, Or.inl ⟨hmem, Or.inl rfl⟩⟩
      have hle := le_skipOptions valueFlags (i + 2) replace' [].tail
      rw [List.length_singleton]
      omega
    | cons next more =>
      rw [List.length_cons, List.length_cons, show i + (more.length + 1 + 1) = i + 2 + more.length by omega]
      refine ih.trans ⟨fun h => ⟨text, htext, Or.inl ⟨hmem, Or.inr ⟨next, more, rfl, h⟩⟩⟩, fun h => ?_⟩
      obtain ⟨other, hknown, hcases⟩ := h
      obtain rfl := Option.some.inj (htext.symm.trans hknown)
      rcases hcases with ⟨_, hnil | ⟨_, _, hcons, hmore⟩⟩ | ⟨hnot, _⟩
      · cases hnil
      · cases hcons
        exact hmore
      · exact absurd hmem hnot
  | case6 i replace word rest text htext hstart hother replace' hflag ih =>
    have hnot : text ∉ valueFlags := fun hmem => hflag (List.contains_iff_mem.mpr hmem)
    rw [Bool.not_eq_true', Bool.not_eq_false] at hstart
    rw [endsOpen_cons, List.length_cons, show i + (rest.length + 1) = i + 1 + rest.length by omega]
    refine ih.trans ⟨fun h => ⟨text, htext, Or.inr ⟨hnot, hstart, hother, h⟩⟩, fun h => ?_⟩
    obtain ⟨other, hknown, hcases⟩ := h
    obtain rfl := Option.some.inj (htext.symm.trans hknown)
    rcases hcases with ⟨hmem, _⟩ | ⟨_, _, _, hrest⟩
    · exact absurd hmem hnot
    · exact hrest

/-- Every flag of `xargs` with a value is an option. -/
theorem startsWith_of_mem_xargsValueFlags : ∀ flag ∈ xargsValueFlags, startsWith flag "-" = true ∧ flag ≠ "--" := by
  decide

theorem strip_of_xargs (h : s.argv.head?.bind programName = some "xargs") :
    s.strip grammar style = s.stripXargs := by
  rw [Stripping.strip, h]
  dsimp only
  rw [if_neg (by simp), if_pos rfl]

/-- `xargs` panics exactly where the last of its options lacks its value. -/
theorem stripXargs_eq_panics_iff {head : Word} {rest : List Word} (hargv : s.argv = head :: rest) :
    s.stripXargs = .panics ↔ EndsOpen xargsValueFlags rest := by
  have hskip := lt_skipOptions_iff startsWith_of_mem_xargsValueFlags 1 false rest
  rw [Nat.add_comm 1] at hskip
  rw [← hskip, Stripping.stripXargs, hargv, List.drop_one, List.tail_cons, List.length_cons]
  split
  · rename_i hpast
    exact iff_of_true rfl hpast
  · rename_i hinside
    exact iff_of_false Turn.noConfusion hinside

/-- A turn panics exactly at `xargs` with options of which the last one lacks its value. -/
theorem turn_eq_panics_iff : s.turn grammar style = .panics ↔ OpenXargs s.argv := by
  have hdrop : (s.dropAssignments style).argv = s.argv.dropWhile isAssignment := rfl
  rw [Stripping.turn, OpenXargs, ← hdrop]
  generalize s.dropAssignments style = t
  constructor
  · intro h
    rcases strip_cases grammar style t with hdone | hfind | hdoppler | hxargs | hwrapper
    · obtain ⟨_, hdone, _⟩ := hdone
      exact Turn.noConfusion (hdone.symm.trans h)
    · exact Turn.noConfusion (hfind.2.symm.trans h)
    · obtain ⟨_, _, _, _, _, hnext⟩ := hdoppler
      exact Turn.noConfusion (hnext.symm.trans h)
    · obtain ⟨head, rest, hargv, hname⟩ := exists_cons_of_program hxargs.1
      exact ⟨head, rest, hargv, hname, (stripXargs_eq_panics_iff hargv).mp (hxargs.2.symm.trans h)⟩
    · obtain ⟨_, _, _, hnext, _⟩ := hwrapper
      exact Turn.noConfusion (hnext.symm.trans h)
  · intro h
    obtain ⟨head, rest, hargv, hname, hopen⟩ := h
    rw [strip_of_xargs (by rw [hargv]; exact hname)]
    exact (stripXargs_eq_panics_iff hargv).mpr hopen

/-- A turn strips a part of the words in front, unless it involves an assignment, `xargs` or a command given as
text. -/
theorem flatten_strips (h : Strips grammar style s s') (hplain : ¬ Involves s.argv) :
    s'.wrappers.flatten ++ s'.argv = s.wrappers.flatten ++ s.argv := by
  have hassigned : s.argv.dropWhile isAssignment = s.argv := by
    cases hargv : s.argv with
    | nil => rfl
    | cons word rest =>
      rw [List.dropWhile_cons, if_neg]
      intro hword
      exact hplain (Or.inl ⟨word, by rw [hargv]; rfl, hword⟩)
  have hsplit : ∀ i, (s.wrappers ++ [s.argv.take i]).flatten ++ s.argv.drop i = s.wrappers.flatten ++ s.argv := by
    intro i
    rw [List.flatten_append, List.flatten_singleton, List.append_assoc, List.take_append_drop]
  have hargv : (s.dropAssignments style).argv = s.argv := hassigned
  have hwrappers : (s.dropAssignments style).wrappers = s.wrappers := rfl
  rw [Strips, Stripping.turn] at h
  rcases strip_cases grammar style (s.dropAssignments style) with
    hdone | hfind | hdoppler | hxargs | hwrapper
  · obtain ⟨_, hdone, _⟩ := hdone
    exact Turn.noConfusion (hdone.symm.trans h)
  · exact Turn.noConfusion (hfind.2.symm.trans h)
  · obtain ⟨consumed, inner, hrun, hprogram, hstrip, hnext⟩ := hdoppler
    obtain rfl := Turn.next.inj (hnext.symm.trans h)
    rw [hargv] at hrun hprogram hstrip
    rw [stripDoppler] at hstrip
    split at hstrip
    · obtain ⟨rfl, rfl⟩ := Prod.mk.inj (Option.some.inj hstrip)
      dsimp only
      rw [hargv, hwrappers]
      exact hsplit _
    · rename_i hnone
      obtain ⟨idx, hidx, _⟩ := Option.bind_eq_some_iff.mp hstrip
      obtain ⟨hlt, hflag, _⟩ := List.findIdx?_eq_some_iff_getElem.mp hidx
      exact absurd (Or.inr (Or.inr ⟨hprogram, hrun, List.findIdx?_eq_none_iff.mp hnone, _, List.getElem_mem hlt, hflag⟩))
        hplain
  · rw [hargv] at hxargs
    exact absurd (Or.inr (Or.inl hxargs.1)) hplain
  · obtain ⟨next, i, _, hnext, _, _, _, _, hdrop, hput⟩ := hwrapper
    obtain rfl := Turn.next.inj (hnext.symm.trans h)
    rw [hdrop, hput, hargv, hwrappers]
    exact hsplit i

/-- Where nothing leads on but what is stripped, the words behind the assignments are all of them. -/
theorem dropWhile_of_not_involves {argv : List Word} (h : ¬ Involves argv) : argv.dropWhile isAssignment = argv := by
  cases argv with
  | nil => rfl
  | cons word rest =>
    rw [List.dropWhile_cons, if_neg]
    intro hword
    exact h (Or.inl ⟨word, rfl, hword⟩)

section Machine

/-- What the analysis is at: a command is stripped, a command is unwrapped, the rest of its analysis walks, or the
analysis of a command is over. -/
inductive Doing (A : Type*) (limit : ℕ)
  | strips (a : A) (raw : RawInvocation) (frame : Frame) (s : Stripping)
  | unwraps (a : A) (unwrapped : Unwrapped)
  | walks {depth : ℕ} (walk : Walk A limit depth)
  | leaves (a : A)

/-- What waits: the actions of `find` not run yet, the rest of the analysis of a command that is being unwrapped, or a
walk for a command it handed over. -/
inductive Waiting (A : Type*) (limit : ℕ)
  | actions (actions : List RawInvocation) (frame : Frame) (unwrapped : Unwrapped)
  | rest (raw : RawInvocation) (frame : Frame)
  | walk {depth : ℕ} (next : A → Walk A limit depth)

/-- The analysis under way. -/
structure Machine (A : Type*) (limit : ℕ) where
  doing : Doing A limit
  waiting : List (Waiting A limit)

variable {A : Type*} {limit : ℕ}

/-- Unwrap a command and go on with the rest of its analysis. -/
def Machine.invoke (a : A) (raw : RawInvocation) (frame : Frame) (waiting : List (Waiting A limit)) : Machine A limit :=
  ⟨.strips a raw frame (raw.stripping frame), .rest raw frame :: waiting⟩

/-- The next step, none where a turn panics, a walk is stuck or nothing waits. -/
def Machine.step (grammar : Grammar) (style : PathStyle)
    (rest : A → RawInvocation → (frame : Frame) → Unwrapped → Walk A limit frame.depth) (m : Machine A limit) :
    Option (Machine A limit) :=
  match m.doing with
  | .strips a raw frame s =>
    match s.turn grammar style with
    | .panics => none
    | .done s' => some ⟨.unwraps a s'.unwrapped, m.waiting⟩
    | .next s' => some ⟨.strips a raw frame s', m.waiting⟩
    | .find s' => some ⟨.leaves a, .actions (s'.actions raw) frame s'.unwrapped :: m.waiting⟩
  | .walks (.done a) => some ⟨.leaves a, m.waiting⟩
  | .walks (.command a raw frame _ _ next) => some (.invoke a raw frame (.walk next :: m.waiting))
  | .walks .stuck => none
  | .unwraps a unwrapped =>
    match m.waiting with
    | .rest raw frame :: waiting => some ⟨.walks (rest a raw frame unwrapped), waiting⟩
    | _ => none
  | .leaves a =>
    match m.waiting with
    | .actions (action :: more) frame unwrapped :: waiting =>
      some (.invoke a action frame (.actions more frame unwrapped :: waiting))
    | .actions [] _ unwrapped :: waiting => some ⟨.unwraps a unwrapped, waiting⟩
    | .walk next :: waiting => some ⟨.walks (next a), waiting⟩
    | _ => none

/-- The machine comes from one state to another. -/
def Machine.Comes (grammar : Grammar) (style : PathStyle)
    (rest : A → RawInvocation → (frame : Frame) → Unwrapped → Walk A limit frame.depth) : Machine A limit →
    Machine A limit → Prop :=
  ReflTransGen fun m m' => m.step grammar style rest = some m'

/-- The machine is at `xargs` with options of which the last one lacks its value, or at a walk that is stuck. -/
def Machine.Stops (m : Machine A limit) : Prop :=
  (∃ a raw frame s, m.doing = .strips a raw frame s ∧ OpenXargs s.argv) ∨
    ∃ depth, m.doing = .walks (.stuck : Walk A limit depth)

variable {rest : A → RawInvocation → (frame : Frame) → Unwrapped → Walk A limit frame.depth}

/-- The machine comes to what a result leaves, and where there is none to a state at which it stops. -/
def Machine.Follows {X : Type*} (grammar : Grammar) (style : PathStyle)
    (rest : A → RawInvocation → (frame : Frame) → Unwrapped → Walk A limit frame.depth) (m : Machine A limit)
    (result : Option X) (leaves : X → Machine A limit) : Prop :=
  match result with
  | some value => m.Comes grammar style rest (leaves value)
  | none => ∃ last, m.Comes grammar style rest last ∧ last.Stops

namespace Machine

variable {X Y : Type*} {m m' : Machine A limit}

/-- What follows after a step follows. -/
theorem Follows.of_step {result : Option X} {leaves : X → Machine A limit}
    (hstep : m.step grammar style rest = some m') (h : m'.Follows grammar style rest result leaves) :
    m.Follows grammar style rest result leaves := by
  cases result with
  | some value => exact .head hstep h
  | none =>
    obtain ⟨last, hlast, hstops⟩ := h
    exact ⟨last, .head hstep hlast, hstops⟩

/-- What follows after what a result leaves follows. -/
theorem Follows.bind {first : Option X} {leaves : X → Machine A limit} {next : X → Option Y}
    {leaves' : Y → Machine A limit} (h : m.Follows grammar style rest first leaves)
    (hnext : ∀ value, first = some value → (leaves value).Follows grammar style rest (next value) leaves') :
    m.Follows grammar style rest (first.bind next) leaves' := by
  cases first with
  | none => exact h
  | some value =>
    have hrest := hnext value rfl
    rw [Option.bind_some]
    cases hresult : next value with
    | some other =>
      rw [hresult] at hrest
      exact ReflTransGen.trans h hrest
    | none =>
      rw [hresult] at hrest
      obtain ⟨last, hlast, hstops⟩ := hrest
      exact ⟨last, ReflTransGen.trans h hlast, hstops⟩

/-- A walk leaves what it comes to, where what it hands over does. -/
theorem follows_walk {depth : ℕ} (walk : Walk A limit depth)
    {hand : A → RawInvocation → (frame : Frame) → depth < frame.depth → frame.depth ≤ limit → Option A}
    (hhand : ∀ a raw frame deeper admitted waiting, (invoke a raw frame waiting).Follows grammar style rest
      (hand a raw frame deeper admitted) fun a => ⟨.leaves a, waiting⟩) (waiting : List (Waiting A limit)) :
    Follows grammar style rest ⟨.walks walk, waiting⟩ (walk.run hand) fun a => ⟨.leaves a, waiting⟩ := by
  induction walk with
  | done a => exact .single rfl
  | stuck => exact ⟨_, .refl, Or.inr ⟨depth, rfl⟩⟩
  | command a raw frame deeper admitted next ih =>
    refine .of_step rfl (.bind (hhand a raw frame deeper admitted _) fun left _ => ?_)
    exact .of_step rfl (ih left)

/-- The analysis of a command leaves what it comes to, where its stripping and the analyses of deeper commands do. -/
theorem follows_invocation_of {a : A} {raw : RawInvocation} {frame : Frame}
    (hunwrap : ∀ waiting, Follows grammar style rest ⟨.strips a raw frame (raw.stripping frame), waiting⟩
      (unwrapFrom grammar style rest a raw frame (raw.stripping frame)) fun r => ⟨.unwraps r.1 r.2, waiting⟩)
    (hdeeper : ∀ a raw' frame' waiting, frame.depth < frame'.depth → frame'.depth ≤ limit →
      (invoke a raw' frame' waiting).Follows grammar style rest (invocation grammar style rest a raw' frame')
        fun a => ⟨.leaves a, waiting⟩) (waiting : List (Waiting A limit)) :
    (invoke a raw frame waiting).Follows grammar style rest (invocation grammar style rest a raw frame)
      fun a => ⟨.leaves a, waiting⟩ := by
  rw [invocation]
  refine .bind (hunwrap _) fun r _ => .of_step rfl (follows_walk _ ?_ waiting)
  intro a raw' frame' deeper admitted waiting
  exact hdeeper a raw' frame' waiting deeper admitted

/-- The actions of `find` leave what they come to, one after another, and then `find` is unwrapped. -/
theorem follows_actions {frame : Frame} {unwrapped : Unwrapped} (actions : List RawInvocation)
    (hactions : ∀ action ∈ actions, ∀ a waiting, (invoke a action frame waiting).Follows grammar style rest
      (invocation grammar style rest a action frame) fun a => ⟨.leaves a, waiting⟩) (a : A)
    (waiting : List (Waiting A limit)) :
    Follows grammar style rest ⟨.leaves a, .actions actions frame unwrapped :: waiting⟩
      ((actions.foldlM (fun a action => invocation grammar style rest a action frame) a).map fun a => (a, unwrapped))
      fun r => ⟨.unwraps r.1 r.2, waiting⟩ := by
  induction actions generalizing a with
  | nil => exact .single rfl
  | cons action more ih =>
    obtain ⟨hfirst, hmore⟩ := List.forall_mem_cons.mp hactions
    rw [List.foldlM_cons]
    change Follows grammar style rest _ (((invocation grammar style rest a action frame).bind _).map _) _
    rw [Option.map_bind]
    exact .of_step rfl (.bind (hfirst a _) fun left _ => ih hmore left)

/-- The stripping of a command leaves what it comes to, where the analyses of deeper commands do. -/
theorem follows_unwrapFrom_of {frame : Frame}
    (hdeeper : ∀ a raw' frame' waiting, frame.depth < frame'.depth → frame'.depth ≤ limit →
      (invoke a raw' frame' waiting).Follows grammar style rest (invocation grammar style rest a raw' frame')
        fun a => ⟨.leaves a, waiting⟩) (a : A) (raw : RawInvocation) (s : Stripping)
    (waiting : List (Waiting A limit)) :
    Follows grammar style rest ⟨.strips a raw frame s, waiting⟩ (unwrapFrom grammar style rest a raw frame s)
      fun r => ⟨.unwraps r.1 r.2, waiting⟩ := by
  induction hmeasure : knownText s.argv using Nat.strong_induction_on generalizing a raw s waiting with
  | _ n ih =>
    rw [unwrapFrom]
    split
    · rename_i hturn
      exact ⟨_, .refl, Or.inl ⟨a, raw, frame, s, rfl, turn_eq_panics_iff.mp hturn⟩⟩
    · rename_i last hturn
      exact .single (by simp only [step, hturn])
    · rename_i next hturn
      exact .of_step (by simp only [step, hturn]) (ih _ (hmeasure ▸ knownText_turn_lt hturn) a raw next waiting rfl)
    · rename_i last hturn
      have hattach : (last.actions raw).attach.foldlM
          (fun a action => invocation grammar style rest a action.1 frame) a =
            (last.actions raw).foldlM (fun a action => invocation grammar style rest a action frame) a := by
        conv_rhs => rw [← List.attach_map_subtype_val (last.actions raw), List.foldlM_map]
      rw [hattach]
      refine .of_step (by simp only [step, hturn]) (follows_actions _ (fun action haction a waiting => ?_) a waiting)
      exact follows_invocation_of (fun waiting => ih _ (hmeasure ▸ knownText_actions_lt hturn haction) a action _ waiting
        rfl) hdeeper waiting

/-- The analysis of a command leaves what it comes to. -/
theorem follows_invocation (a : A) (raw : RawInvocation) (frame : Frame) (waiting : List (Waiting A limit)) :
    (invoke a raw frame waiting).Follows grammar style rest (invocation grammar style rest a raw frame)
      fun a => ⟨.leaves a, waiting⟩ := by
  induction hmeasure : limit - frame.depth using Nat.strong_induction_on generalizing a raw frame waiting with
  | _ n ih =>
    have hdeeper : ∀ (a : A) raw' frame' (waiting : List (Waiting A limit)), frame.depth < frame'.depth →
        frame'.depth ≤ limit → (invoke a raw' frame' waiting).Follows grammar style rest
          (invocation grammar style rest a raw' frame') fun a => ⟨.leaves a, waiting⟩ :=
      fun a raw' frame' waiting hdeep hadmitted => ih _ (by omega) a raw' frame' waiting rfl
    exact follows_invocation_of (follows_unwrapFrom_of hdeeper a raw _) hdeeper waiting

/-- The stripping of a command leaves what it comes to. -/
theorem follows_unwrapFrom (a : A) (raw : RawInvocation) (frame : Frame) (s : Stripping)
    (waiting : List (Waiting A limit)) :
    Follows grammar style rest ⟨.strips a raw frame s, waiting⟩ (unwrapFrom grammar style rest a raw frame s)
      fun r => ⟨.unwraps r.1 r.2, waiting⟩ :=
  follows_unwrapFrom_of (fun a raw' frame' waiting _ _ => follows_invocation a raw' frame' waiting) a raw s waiting

/-- A machine that stops makes no step. -/
theorem Stops.step_eq_none (h : m.Stops) : m.step grammar style rest = none := by
  rcases h with ⟨a, raw, frame, s, hdoing, hopen⟩ | ⟨depth, hdoing⟩
  · have hturn : s.turn grammar style = .panics := turn_eq_panics_iff.mpr hopen
    simp only [step, hdoing, hturn]
  · simp only [step, hdoing]

/-- A machine without a next step comes to nothing else. -/
theorem Comes.eq_of_none (h : m.Comes grammar style rest m') (hnone : m.step grammar style rest = none) : m = m' := by
  cases h.cases_head with
  | inl heq => exact heq
  | inr hstep =>
    obtain ⟨next, hnext, _⟩ := hstep
    rw [hnone] at hnext
    cases hnext

/-- The stripping of a command ends with a result exactly when the machine does not stop on the way. -/
theorem unwrapFrom_isSome_iff (a : A) (raw : RawInvocation) (frame : Frame) (s : Stripping) :
    (unwrapFrom grammar style rest a raw frame s).isSome = true ↔
      ∀ m, Comes grammar style rest ⟨.strips a raw frame s, []⟩ m → ¬ m.Stops := by
  have hfollows : Follows grammar style rest ⟨.strips a raw frame s, []⟩ (unwrapFrom grammar style rest a raw frame s)
      fun r => ⟨.unwraps r.1 r.2, []⟩ := follows_unwrapFrom a raw frame s []
  cases hresult : unwrapFrom grammar style rest a raw frame s with
  | none =>
    rw [hresult] at hfollows
    obtain ⟨last, hlast, hstops⟩ := hfollows
    exact iff_of_false Bool.false_ne_true fun hall => hall last hlast hstops
  | some r =>
    rw [hresult] at hfollows
    refine iff_of_true rfl fun m hm hstops => ?_
    have hsame : m = ⟨.unwraps r.1 r.2, []⟩ := by
      rcases ReflTransGen.total_of_right_unique (fun _ _ _ h h' => Option.some.inj (h.symm.trans h')) hm hfollows with
        hlater | hearlier
      · exact Comes.eq_of_none hlater hstops.step_eq_none
      · exact (Comes.eq_of_none hearlier rfl).symm
    subst hsame
    rcases hstops with ⟨_, _, _, _, hdoing, _⟩ | ⟨_, hdoing⟩ <;> cases hdoing

end Machine

/-- A run of turns that involve nothing else keeps the words. -/
theorem flatten_unwrapFrom {a a' : A} {raw : RawInvocation} {frame : Frame} {unwrapped : Unwrapped}
    (h : unwrapFrom grammar style rest a raw frame s = some (a', unwrapped))
    (hplain : ∀ t, ReflTransGen (Strips grammar style) s t → ¬ Involves t.argv) :
    unwrapped.wrappers.flatten ++ unwrapped.argv = s.wrappers.flatten ++ s.argv := by
  induction hmeasure : knownText s.argv using Nat.strong_induction_on generalizing s with
  | _ n ih =>
    have hall := dropWhile_of_not_involves (hplain s .refl)
    rw [unwrapFrom] at h
    split at h
    · cases h
    · rename_i last hturn
      obtain ⟨hargv, hwrappers⟩ := turn_done hturn
      obtain ⟨_, rfl⟩ := Prod.mk.inj (Option.some.inj h)
      rw [Stripping.unwrapped, hargv, hwrappers, hall]
    · rename_i next hturn
      have hlt := knownText_turn_lt hturn
      rw [← flatten_strips hturn (hplain s .refl)]
      refine ih _ (hmeasure ▸ hlt) h (fun t ht => hplain t (.head hturn ht)) rfl
    · rename_i last hturn
      obtain ⟨_, rfl⟩ := turn_find hturn
      obtain ⟨_, _, hpair⟩ := Option.map_eq_some_iff.mp h
      obtain ⟨_, rfl⟩ := Prod.mk.inj hpair
      rw [Stripping.unwrapped]
      exact congrArg (s.wrappers.flatten ++ ·) hall

end Machine

/-- Unwrapping a command ends with a result, with the words kept where no assignment, `xargs` or command given as text
is involved, exactly when the analysis comes to no `xargs` whose last word is a flag that lacks its value and to no walk
that is stuck. -/
theorem unwrap_iff {A : Type*} {limit : ℕ} (grammar : Grammar) (style : PathStyle)
    (rest : A → RawInvocation → (frame : Frame) → Unwrapped → Walk A limit frame.depth) (a : A) (raw : RawInvocation)
    (frame : Frame) :
    (∃ a' unwrapped, unwrap grammar style rest a raw frame = some (a', unwrapped) ∧
      ((∀ s, ReflTransGen (Strips grammar style) (raw.stripping frame) s → ¬ Involves s.argv) →
        unwrapped.wrappers.flatten ++ unwrapped.argv = raw.words)) ↔
      ∀ m, Machine.Comes grammar style rest ⟨.strips a raw frame (raw.stripping frame), []⟩ m → ¬ m.Stops := by
  rw [← Machine.unwrapFrom_isSome_iff a raw, Option.isSome_iff_exists]
  constructor
  · intro h
    obtain ⟨a', unwrapped, hunwrap, _⟩ := h
    exact ⟨_, hunwrap⟩
  · intro h
    obtain ⟨⟨a', unwrapped⟩, hunwrap⟩ := h
    exact ⟨a', unwrapped, hunwrap, fun hplain => flatten_unwrapFrom hunwrap hplain⟩

/-- `xargs -n` panics. -/
theorem unwrap_xargs_panics :
    unwrap default .unix (fun (a : Unit) _ _ _ => (.done a : Walk Unit 8 _)) ()
      ⟨[literal "xargs", literal "-n"], .none, none, none, [], .bash, ⟨(0, 8), none⟩⟩
      ⟨0, [], none, none, .inherited⟩ = none := by
  rw [unwrap, ← Option.not_isSome_iff_eq_none, Machine.unwrapFrom_isSome_iff]
  intro h
  exact h _ .refl (Or.inl ⟨_, _, _, _, rfl, literal "xargs", [literal "-n"], by decide, by decide,
    .last rfl (by decide)⟩)

end Devkit.Command
