import Devkit.Todos.Layout

/-!
# Whose sessions a role sees

A role sees nodes of two kinds: those it and the scopes above it write to, and below its own node those that a template
reads with the caller's session id. Another session is one that some template reads and none reads as the caller's,
which compares the harness as well as the id. The two tests part where only the harness differs.
-/

namespace Devkit.Todos

open Devkit.Config
open Devkit.Library
open Std

namespace Layout

section Total

variable {config : TodoConfig} {layout : Layout} (facts : Facts)

/-- The rows of the templates are the scopes, each with its template. -/
theorem mapM_parseScope {scopes : List (String × ScopeConfig)} {templates : List (String × Template)}
    (h : scopes.mapM parseScope = .ok templates) :
    templates.map Prod.fst = scopes.map Prod.fst ∧ ∀ name template, (name, template) ∈ templates ↔
      ∃ scope, (name, scope) ∈ scopes ∧ Template.parse scope.node = .ok template := by
  induction scopes generalizing templates with
  | nil =>
    cases h
    simp
  | cons row rest ih =>
    rw [List.mapM_cons] at h
    obtain ⟨first, hfirst, h⟩ := bind_eq_ok.mp h
    obtain ⟨more, hmore, h⟩ := bind_eq_ok.mp h
    obtain rfl := Except.ok.inj h
    obtain ⟨hkeys, hrows⟩ := ih hmore
    obtain ⟨template, htemplate, hfirst⟩ := bind_eq_ok.mp hfirst
    obtain rfl := Except.ok.inj hfirst
    have hparse : ∀ other, Template.parse row.2.node = .ok other ↔ other = template := by
      intro other
      rw [mapError_eq_ok.mp htemplate, Except.ok.injEq]
      exact eq_comm
    refine ⟨by simp [hkeys], fun name other => ?_⟩
    rw [List.mem_cons, hrows]
    constructor
    · rintro (heq | ⟨scope, hmem, hscope⟩)
      · obtain ⟨rfl, rfl⟩ := Prod.mk.inj heq
        exact ⟨row.2, List.mem_cons_self, (hparse _).mpr rfl⟩
      · exact ⟨scope, List.mem_cons_of_mem row hmem, hscope⟩
    · rintro ⟨scope, hmem, hscope⟩
      rcases List.mem_cons.mp hmem with rfl | hmem
      · exact Or.inl (by rw [(hparse other).mp hscope])
      · exact Or.inr ⟨scope, hmem, hscope⟩

/-- A layout is of its configuration, which is valid, and has the template of each scope. -/
theorem new_ok (h : Layout.new config = .ok layout) :
    config.validate = .ok () ∧ layout.config = config ∧
      ∀ (name : String) (template : Template), layout.templates[name]? = some template ↔
        ∃ scope : ScopeConfig, config.scopes[name]? = some scope ∧ Template.parse scope.node = .ok template := by
  obtain ⟨_, hvalid, h⟩ := bind_eq_ok.mp h
  obtain ⟨templates, htemplates, h⟩ := bind_eq_ok.mp h
  obtain rfl := Except.ok.inj h
  obtain ⟨hkeys, hrows⟩ := mapM_parseScope htemplates
  refine ⟨hvalid, rfl, fun name template => ?_⟩
  have hdistinct : templates.Pairwise fun a b => a.1 ≠ b.1 := by
    have hscopes := toList_pairwise_ne config.scopes
    rw [← List.pairwise_map (f := Prod.fst) (R := (· ≠ ·))] at hscopes ⊢
    rwa [hkeys]
  rw [getElem?_ofList_eq_some hdistinct, hrows]
  simp only [ExtTreeMap.mem_toList_iff_getElem?_eq_some]

/-- A template of no placeholders is filled by any values. -/
theorem fill_of_no_names {t : Template} (h : names t.segments.flatten = []) (values : Values) :
    ∃ node, t.fill values = some node := by
  have hparts : ∀ parts ∈ t.segments, ∃ text, fillSegment values parts = some text := by
    intro parts hparts
    have hfill : ∀ part ∈ parts, ∃ text, fillPart values part = some text := by
      intro part hpart
      have hname := List.filterMap_eq_nil_iff.mp h part (List.mem_flatten.mpr ⟨parts, hparts, hpart⟩)
      cases part with
      | literal text => exact ⟨text, rfl⟩
      | value name => contradiction
    obtain ⟨pieces, hpieces⟩ := mapM_exists hfill
    exact ⟨pieces.flatten, by rw [fillSegment, hpieces]; rfl⟩
  obtain ⟨nodes, hnodes⟩ := mapM_exists hparts
  exact ⟨_, by rw [Template.fill, hnodes]; rfl⟩

/-- On a way up that ends, over scopes of a valid layout, one scope is filled. -/
theorem filledScope_ok (h : Layout.new config = .ok layout) {bound : ℕ} {here : String}
    (hends : Ends config.parentScope bound (some here)) (hhere : here ∈ config.scopes) :
    ∃ scope node, layout.filledScope facts bound here = .ok (scope, node) ∧ scope ∈ config.scopes := by
  obtain ⟨hvalid, hconfig, htemplates⟩ := new_ok h
  induction bound generalizing here with
  | zero => exact hends.elim
  | succ bound ih =>
    obtain ⟨scope, hscope⟩ := Option.isSome_iff_exists.mp (ExtTreeMap.mem_iff_isSome_getElem?.mp hhere)
    have hscopeValid := TodoConfig.validScope_of_validate hvalid hscope
    obtain ⟨template, hparse, hroot⟩ := hscopeValid.parses
    have htemplate := (htemplates here template).mpr ⟨scope, hscope, hparse⟩
    rw [filledScope, hconfig, hscope, htemplate]
    dsimp only
    cases hfill : template.fill facts.values with
    | some node => exact ⟨here, node, rfl, hhere⟩
    | none =>
      cases hparent : scope.parent with
      | none =>
        obtain ⟨node, hnode⟩ := fill_of_no_names (hroot hparent) facts.values
        rw [hfill] at hnode
        contradiction
      | some parent =>
        have hstep : config.parentScope here = some parent := by simp [TodoConfig.parentScope, hscope, hparent]
        have hrest : Ends config.parentScope bound (config.parentScope here) := hends
        rw [hstep] at hrest
        exact ih hrest (hscopeValid.parent parent hparent)

/-- The way up from a scope of a valid configuration ends within its scopes. -/
theorem ends_parentScope (hvalid : config.validate = .ok ()) {scope : String} (hscope : scope ∈ config.scopes) :
    Ends config.parentScope config.scopes.size (some scope) := by
  obtain ⟨found, hfound⟩ := Option.isSome_iff_exists.mp (ExtTreeMap.mem_iff_isSome_getElem?.mp hscope)
  have hclosed : ∀ a b, config.parentScope a = some b → b ∈ config.scopes.keys := by
    intro a b hab
    obtain ⟨row, hrow, hparent⟩ := Option.bind_eq_some_iff.mp hab
    exact ExtTreeMap.mem_keys.mpr ((TodoConfig.validScope_of_validate hvalid hrow).parent b hparent)
  have hhere : ∀ a, some scope = some a → a ∈ config.scopes.keys := fun a ha =>
    Option.some.inj ha ▸ ExtTreeMap.mem_keys.mpr hscope
  have hends := ends_of_revisited hclosed hhere (TodoConfig.validScope_of_validate hvalid hfound).uncycled
  have hsize : unvisited config.scopes.keys [] = config.scopes.size := by
    simp [unvisited]
  rwa [hsize] at hends

/-- A scope of a valid layout is filled. -/
theorem filled_ok (h : Layout.new config = .ok layout) {scope : String} (hscope : scope ∈ config.scopes) :
    ∃ here node, layout.filled facts scope = .ok (here, node) ∧ here ∈ config.scopes := by
  obtain ⟨hvalid, hconfig, -⟩ := new_ok h
  have hends := ends_parentScope hvalid hscope
  rw [filled, hconfig]
  exact filledScope_ok facts h hends hscope

/-- The nodes of a way up that ends, over scopes of a valid layout, are found. -/
theorem parentNodes_ok (h : Layout.new config = .ok layout) {bound : ℕ} {here : Option String}
    (hends : Ends config.parentScope bound here) (hhere : ∀ scope, here = some scope → scope ∈ config.scopes)
    (nodes : List NodeMatch) : ∃ found, layout.parentNodes facts bound here nodes = .ok found := by
  obtain ⟨hvalid, hconfig, -⟩ := new_ok h
  induction bound generalizing here nodes with
  | zero =>
    cases here with
    | none => exact ⟨nodes, rfl⟩
    | some scope => exact hends.elim
  | succ bound ih =>
    cases here with
    | none => exact ⟨nodes, rfl⟩
    | some scope =>
      have hscope := hhere scope rfl
      obtain ⟨row, hrow⟩ := Option.isSome_iff_exists.mp (ExtTreeMap.mem_iff_isSome_getElem?.mp hscope)
      obtain ⟨_, node, hfilled, -⟩ := filled_ok facts h hscope
      have hstep : config.parentScope scope = row.parent := by simp [TodoConfig.parentScope, hrow]
      have hrest : Ends config.parentScope bound (config.parentScope scope) := hends
      rw [hstep] at hrest
      obtain ⟨found, hfound⟩ := ih hrest (TodoConfig.validScope_of_validate hvalid hrow).parent
        (if .exact node ∈ nodes then nodes else nodes ++ [.exact node])
      refine ⟨found, ?_⟩
      rw [parentNodes, fill, hfilled, hconfig, hrow]
      exact hfound

/-- A role of a valid layout sees something. -/
theorem visible_ok (h : Layout.new config = .ok layout) {role : String} {row : RoleConfig}
    (hrole : config.roles[role]? = some row) : ∃ filter, layout.visible facts role = .ok filter := by
  obtain ⟨hvalid, hconfig, -⟩ := new_ok h
  obtain ⟨scope, own, hfilled, hscope⟩ := filled_ok facts h (TodoConfig.scope_of_validate hvalid hrole)
  obtain ⟨found, hfound⟩ := Option.isSome_iff_exists.mp (ExtTreeMap.mem_iff_isSome_getElem?.mp hscope)
  have hends := (ends_parentScope hvalid hscope).step
  have hstep : config.parentScope scope = found.parent := by simp [TodoConfig.parentScope, hfound]
  rw [hstep] at hends
  obtain ⟨nodes, hnodes⟩ := parentNodes_ok facts h hends
    (TodoConfig.validScope_of_validate hvalid hfound).parent [.exact own]
  rw [visible, hconfig, hrole]
  dsimp only
  rw [hfilled]
  refine Exists.imp (fun _ hrest => bind_eq_ok.mpr ⟨(scope, own), rfl, hrest⟩) ?_
  dsimp only
  rw [hfound]
  exact ⟨_, bind_eq_ok.mpr ⟨nodes, hnodes, rfl⟩⟩

end Total

section Separated

variable (layout : Layout) (facts : Facts)

/-- A scope on the way up from one, that one included. -/
inductive OnWayUp (config : TodoConfig) : Option String → String → Prop
  | here (scope : String) : OnWayUp config (some scope) scope
  | up {scope above : String} (h : OnWayUp config (config.parentScope scope) above) : OnWayUp config (some scope) above

/-- The nodes found on a way up are those of its scopes. -/
theorem mem_parentNodes {bound : ℕ} {start : Option String} {nodes found : List NodeMatch}
    (h : layout.parentNodes facts bound start nodes = .ok found) (m : NodeMatch) :
    m ∈ found ↔ m ∈ nodes ∨ ∃ scope node, OnWayUp layout.config start scope ∧
      layout.fill facts scope = .ok node ∧ m = .exact node := by
  induction bound generalizing start nodes with
  | zero =>
    cases start with
    | none =>
      obtain rfl := Except.ok.inj h
      exact ⟨Or.inl, fun hmem => hmem.resolve_right fun ⟨_, _, hway, _⟩ => by cases hway⟩
    | some scope => contradiction
  | succ bound ih =>
    cases start with
    | none =>
      obtain rfl := Except.ok.inj h
      exact ⟨Or.inl, fun hmem => hmem.resolve_right fun ⟨_, _, hway, _⟩ => by cases hway⟩
    | some scope =>
      obtain ⟨node, hnode, h⟩ := bind_eq_ok.mp h
      dsimp only at h
      split at h
      · contradiction
      · rename_i row hrow
        have hstep : layout.config.parentScope scope = row.parent := by simp [TodoConfig.parentScope, hrow]
        have hpushed : m ∈ (if .exact node ∈ nodes then nodes else nodes ++ [.exact node]) ↔
            m ∈ nodes ∨ m = .exact node := by
          split
          · rename_i hmem
            exact ⟨Or.inl, fun hm => hm.elim id (· ▸ hmem)⟩
          · simp
        rw [ih h, hpushed, or_assoc]
        refine or_congr_right ⟨?_, ?_⟩
        · rintro (rfl | ⟨above, other, hway, hother, rfl⟩)
          · exact ⟨scope, node, .here scope, hnode, rfl⟩
          · exact ⟨above, other, .up (hstep ▸ hway), hother, rfl⟩
        · rintro ⟨above, other, hway, hother, rfl⟩
          cases hway with
          | here =>
            obtain rfl := Except.ok.inj (hnode.symm.trans hother)
            exact Or.inl rfl
          | up hway => exact Or.inr ⟨above, other, hstep ▸ hway, hother, rfl⟩

/-- A template reads a session in a node. -/
def SessionIn (project : String) (template : Template) : Prop :=
  ∃ values found, template.read project = some values ∧ values["session"]? = some found

/-- A template reads a node as one of the caller's session. -/
def CallerIn (session project : String) (template : Template) : Prop :=
  ∃ values found, template.read project = some values ∧ values["session"]? = some found ∧
    ofCaller facts session values found = true

/-- The templates left identify another session when none reads the caller's and one reads a session. -/
theorem otherAmong_iff (session project : String) (templates : List Template) (other : Bool) :
    otherAmong facts session project templates other = true ↔
      (∀ template ∈ templates, ¬ CallerIn facts session project template) ∧
      (other = true ∨ ∃ template ∈ templates, SessionIn project template) := by
  induction templates generalizing other with
  | nil => simp [otherAmong]
  | cons template rest ih =>
    simp only [List.forall_mem_cons]
    cases hread : template.read project with
    | none =>
      have hsession : ¬ SessionIn project template := by simp [SessionIn, hread]
      have hcaller : ¬ CallerIn facts session project template := by simp [CallerIn, hread]
      simp [otherAmong, hread, ih, hsession, hcaller]
    | some values =>
      cases hfound : values["session"]? with
      | none =>
        have hsession : ¬ SessionIn project template := by simp [SessionIn, hread, hfound]
        have hcaller : ¬ CallerIn facts session project template := by simp [CallerIn, hread, hfound]
        simp [otherAmong, hread, hfound, ih, hsession, hcaller]
      | some found =>
        have hsession : SessionIn project template := ⟨values, found, hread, hfound⟩
        have hcaller : CallerIn facts session project template ↔ ofCaller facts session values found = true := by
          simp [CallerIn, hread, hfound]
        cases hof : ofCaller facts session values found with
        | true => simp [otherAmong, hread, hfound, hof, hcaller]
        | false => simp [otherAmong, hread, hfound, hof, hcaller, hsession, ih]

/-- Another session is one that some template reads and none reads as the caller's. -/
theorem isOtherSession_iff {project : String} :
    layout.isOtherSession facts project = true ↔ ∃ session, facts.values["session"]? = some session ∧
      (∀ template ∈ rows layout.templates, ¬ CallerIn facts session project template) ∧
      ∃ template ∈ rows layout.templates, SessionIn project template := by
  unfold isOtherSession
  cases facts.values["session"]? with
  | none => simp
  | some session => simp [otherAmong_iff]

/-- A node that is of a session is of the caller's, if the caller has one. -/
def Settled (project : String) : Prop :=
  ∀ session, facts.values["session"]? = some session →
    (∃ template ∈ rows layout.templates, SessionIn project template) →
      ∃ template ∈ rows layout.templates, CallerIn facts session project template

/-- A node is of no other session exactly if it is settled. -/
theorem settled_iff {project : String} :
    Settled layout facts project ↔ layout.isOtherSession facts project = false := by
  rw [← Bool.not_eq_true, isOtherSession_iff]
  constructor
  · rintro hsettled ⟨session, hsession, hnone, hsome⟩
    obtain ⟨template, hmem, hcaller⟩ := hsettled session hsession hsome
    exact hnone template hmem hcaller
  · intro hother session hsession hsome
    by_contra hnone
    exact hother ⟨session, hsession, fun template hmem hcaller => hnone ⟨template, hmem, hcaller⟩, hsome⟩

/-- A node is below another. -/
def Below (top node : String) : Prop := top.toList ++ ['.'] <+: node.toList

/-- The test on what follows a node says that a node is below it. -/
theorem below_iff {top node : String} :
    ((restOf node top).any fun rest => rest.head? == some '.') = true ↔ Below top node := by
  simp only [restOf, Below, Option.any_eq_true, beq_iff_eq, List.dropPrefix?_eq_some_iff]
  constructor
  · rintro ⟨rest, ⟨start, hnode, rfl⟩, hhead⟩
    cases rest with
    | nil => contradiction
    | cons c rest =>
      obtain rfl := Option.some.inj hhead
      exact ⟨rest, by rw [hnode]; simp⟩
  · rintro ⟨rest, hnode⟩
    exact ⟨'.' :: rest, ⟨top.toList, by rw [← hnode]; simp, rfl⟩, rfl⟩

/-- A caller whose own node is this one, of this scope, sees no other session's node: its own and those the scopes above
write to are settled, and a node below that a template reads with the caller's session id under another harness is read
as the caller's by some template. -/
structure SeparatedAt (here own : String) : Prop where
  self : Settled layout facts own
  above : ∀ other node, OnWayUp layout.config (layout.config.parentScope here) other →
    layout.fill facts other = .ok node → Settled layout facts node
  below : ∀ node session, Below own node → facts.values["session"]? = some session →
    (∃ template ∈ rows layout.templates, ∃ values harness, template.read node = some values ∧
      values["session"]? = some session ∧ values["harness"]? = some harness ∧
      facts.values["harness"]? ≠ some harness) →
    ∃ template ∈ rows layout.templates, CallerIn facts session node template

/-- The nodes a role covers: its own, those of the scopes above, and the caller's session's below its own. -/
theorem matchesProject_visible {role : String} {row : RoleConfig} (hrole : layout.config.roles[role]? = some row)
    {filter : Filter} (h : layout.visible facts role = .ok filter) :
    ∃ here own, layout.filled facts row.scope = .ok (here, own) ∧ ∀ node,
      filter.matchesProject (some node) = true ↔ node = own ∨
        (∃ other, OnWayUp layout.config (layout.config.parentScope here) other ∧ layout.fill facts other = .ok node) ∨
        ∃ session, facts.values["session"]? = some session ∧ Below own node ∧
          ∃ template ∈ rows layout.templates, ∃ values, template.read node = some values ∧
            values["session"]? = some session := by
  rw [visible, hrole] at h
  obtain ⟨⟨here, own⟩, hfilled, h⟩ := bind_eq_ok.mp h
  dsimp only at h
  split at h
  · contradiction
  · rename_i found hfound
    obtain ⟨nodes, hnodes, h⟩ := bind_eq_ok.mp h
    obtain rfl := Except.ok.inj h
    have hstep : layout.config.parentScope here = found.parent := by simp [TodoConfig.parentScope, hfound]
    refine ⟨here, own, hfilled, fun node => ?_⟩
    have hexact : nodes.any (NodeMatch.covers node) = true ↔ node = own ∨
        ∃ other, OnWayUp layout.config found.parent other ∧ layout.fill facts other = .ok node := by
      simp only [List.any_eq_true, mem_parentNodes layout facts hnodes, List.mem_singleton]
      constructor
      · rintro ⟨m, rfl | ⟨other, top, hway, hfill, rfl⟩, hcovers⟩
        · exact Or.inl (beq_iff_eq.mp hcovers)
        · exact Or.inr ⟨other, hway, by rw [hfill, beq_iff_eq.mp hcovers]⟩
      · rintro (rfl | ⟨other, hway, hfill⟩)
        · exact ⟨_, Or.inl rfl, beq_self_eq_true _⟩
        · exact ⟨_, Or.inr ⟨other, node, hway, hfill, rfl⟩, beq_self_eq_true node⟩
    rw [hstep]
    simp only [Filter.matchesProject, Option.getD_some]
    cases hsession : facts.values["session"]? with
    | none => simp [hexact]
    | some session =>
      have hsession : (NodeMatch.covers node (.sessionDescendants own session (rows layout.templates))) = true ↔
          Below own node ∧ ∃ template ∈ rows layout.templates, ∃ values, template.read node = some values ∧
            values["session"]? = some session := by
        rw [NodeMatch.covers, Bool.and_eq_true, below_iff]
        simp only [List.any_eq_true, Option.any_eq_true, beq_iff_eq]
      simp only [List.any_append, Bool.or_eq_true, hexact, List.any_cons, List.any_nil, Bool.or_false, hsession,
        Option.some.injEq, exists_eq_left', or_assoc]

/-- What a caller sees at its node is of no other session exactly when it is separated there. -/
theorem separatedAt_iff {here own : String} :
    SeparatedAt layout facts here own ↔ ∀ node, (node = own ∨
      (∃ other, OnWayUp layout.config (layout.config.parentScope here) other ∧ layout.fill facts other = .ok node) ∨
      ∃ session, facts.values["session"]? = some session ∧ Below own node ∧
        ∃ template ∈ rows layout.templates, ∃ values, template.read node = some values ∧
          values["session"]? = some session) → layout.isOtherSession facts node = false := by
  simp only [← settled_iff]
  constructor
  · rintro hsep node (rfl | ⟨other, hway, hfill⟩ | ⟨session, hsession, hbelow, template, hmem, values, hread, hvalue⟩)
    · exact hsep.self
    · exact hsep.above other node hway hfill
    · intro session' hsession' _
      obtain rfl := Option.some.inj (hsession.symm.trans hsession')
      by_cases hcaller : ofCaller facts session values session = true
      · exact ⟨template, hmem, values, session, hread, hvalue, hcaller⟩
      · refine hsep.below node session hbelow hsession ⟨template, hmem, values, ?_⟩
        cases hharness : values["harness"]? with
        | none => simp [ofCaller, hharness] at hcaller
        | some harness =>
          refine ⟨harness, hread, hvalue, rfl, fun hsame => hcaller ?_⟩
          simp [ofCaller, hharness, hsame]
  · intro hall
    refine ⟨hall own (Or.inl rfl), fun other node hway hfill => hall node (Or.inr (Or.inl ⟨other, hway, hfill⟩)), ?_⟩
    rintro node session hbelow hsession ⟨template, hmem, values, harness, hread, hvalue, -, -⟩
    exact hall node (Or.inr (Or.inr ⟨session, hsession, hbelow, template, hmem, values, hread,
      hvalue⟩)) session hsession
      ⟨template, hmem, values, session, hread, hvalue⟩

/-- Anything offered but the root is of no other session, so all that is offered is of none when the root is settled. -/
theorem offered_iff {root role : String} :
    (∀ node, layout.offered facts (some node) root role = true → layout.isOtherSession facts node = false) ↔
      Settled layout facts root := by
  rw [settled_iff]
  constructor
  · exact fun hall => hall root (by simp [offered])
  · intro hroot node hoffered
    by_cases hnode : node = root
    · rw [hnode]
      exact hroot
    · cases hother : layout.isOtherSession facts node with
      | false => rfl
      | true => simp [offered, hnode, hother] at hoffered

/-- In a valid layout every role sees something, and it sees no node of another session exactly when it is separated
at its own node; what is offered is of no other session exactly when the root is settled. -/
theorem visible_separated_iff {config : TodoConfig} {layout : Layout} (h : Layout.new config = .ok layout)
    (facts : Facts) {role : String} {row : RoleConfig} (hrole : config.roles[role]? = some row) :
    ∃ filter here own, layout.visible facts role = .ok filter ∧ layout.filled facts row.scope = .ok (here, own) ∧
      ((∀ node, filter.matchesProject (some node) = true → layout.isOtherSession facts node = false) ↔
        SeparatedAt layout facts here own) ∧
      ∀ root, (∀ node, layout.offered facts (some node) root role = true →
        layout.isOtherSession facts node = false) ↔ Settled layout facts root := by
  obtain ⟨filter, hfilter⟩ := visible_ok facts h hrole
  have hrow : layout.config.roles[role]? = some row := (new_ok h).2.1 ▸ hrole
  obtain ⟨here, own, hfilled, hmatches⟩ := matchesProject_visible layout facts hrow hfilter
  refine ⟨filter, here, own, hfilter, hfilled, ?_, fun root => offered_iff layout facts⟩
  simp only [hmatches, separatedAt_iff]

end Separated

section Example

/-- The scopes a configuration has of itself. -/
def defaultScopes : List (String × ScopeConfig) :=
  [("global", ⟨"global", none⟩),
   ("repo", ⟨"\x7brepo\x7d", some "global"⟩),
   ("workspace", ⟨"\x7brepo\x7d.\x7bbranch\x7d", some "repo"⟩),
   ("session", ⟨"\x7brepo\x7d.\x7bbranch\x7d.\x7bharness\x7d-\x7bsession\x7d", some "workspace"⟩),
   ("agent", ⟨"\x7brepo\x7d.\x7bbranch\x7d.\x7bharness\x7d-\x7bsession\x7d.\x7bagent\x7d", some "session"⟩)]

/-- The roles a configuration has of itself, and a manager that writes to the workspace. -/
def managerRoles : List (String × RoleConfig) :=
  [("main", ⟨"session", none, []⟩), ("subagent", ⟨"session", none, []⟩), ("manager", ⟨"workspace", none, []⟩)]

/-- A configuration with a manager. -/
def managerConfig : TodoConfig := ⟨ExtTreeMap.ofList defaultScopes, ExtTreeMap.ofList managerRoles⟩

/-- A session of one harness on a branch. -/
def codexFacts : Facts :=
  ⟨ExtTreeMap.ofList [("repo", "r"), ("branch", "main"), ("harness", "codex"), ("session", "S")]⟩

/-- The manager of one harness sees the list of the session of the same id under another. -/
theorem visible_crosses_harness : ∃ layout filter, Layout.new managerConfig = .ok layout ∧
    layout.visible codexFacts "manager" = .ok filter ∧ filter.matchesProject (some "r.main.claude-S") = true ∧
      layout.isOtherSession codexFacts "r.main.claude-S" = true := by
  have hrun : ((Layout.new managerConfig).toOption.bind fun layout =>
      (layout.visible codexFacts "manager").toOption.map fun filter =>
        (filter.matchesProject (some "r.main.claude-S"), layout.isOtherSession codexFacts "r.main.claude-S")) =
      some (true, true) := by decide +kernel
  cases hlayout : Layout.new managerConfig with
  | error reason => simp [hlayout, Except.toOption] at hrun
  | ok layout =>
    cases hfilter : layout.visible codexFacts "manager" with
    | error reason => simp [hlayout, hfilter, Except.toOption] at hrun
    | ok filter =>
      simp only [hlayout, hfilter, Except.toOption, Option.bind_some, Option.map_some, Option.some.injEq,
        Prod.mk.injEq] at hrun
      exact ⟨layout, filter, rfl, hfilter, hrun.1, hrun.2⟩

/-- What the main role is offered at the workspace's root is of no other session. -/
theorem visible_separated_iff_sample : ∃ layout, Layout.new managerConfig = .ok layout ∧
    ∀ node, layout.offered codexFacts (some node) "r.main" "main" = true →
      layout.isOtherSession codexFacts node = false := by
  have hrun : ((Layout.new managerConfig).toOption.map fun layout => layout.isOtherSession codexFacts "r.main") =
      some false := by decide +kernel
  have hrole : managerConfig.roles["main"]? = some ⟨"session", none, []⟩ := by decide +kernel
  cases hlayout : Layout.new managerConfig with
  | error reason => simp [hlayout, Except.toOption] at hrun
  | ok layout =>
    simp only [hlayout, Except.toOption, Option.map_some, Option.some.injEq] at hrun
    obtain ⟨_, _, _, _, _, _, hoffered⟩ := visible_separated_iff hlayout codexFacts hrole
    exact ⟨layout, rfl, (hoffered "r.main").mpr ((settled_iff layout codexFacts).mpr hrun)⟩

end Example

end Layout

end Devkit.Todos
