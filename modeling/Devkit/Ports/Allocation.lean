import Devkit.Library.Outcomes
import Devkit.Ports.Rows

/-!
# One allocation, from its snapshot to its commit

An allocation chooses ports on a snapshot and checks each choice again when it commits, against a registry that may
have gained or lost rows. Each search is given the clock and the probes of the time it runs at, since no port is probed
twice in one search. A search with nothing left panics.
-/

namespace Devkit.Ports

open Devkit.Library

/-- How the store answers an allocation: whether a snapshot is read, a commit begins, and the result is saved. -/
structure StoreAnswers where
  read : Bool
  opened : Bool
  saved : Bool

/-- What an allocation ends in. -/
inductive Outcome
  | panicked
  | failed
  | granted (out : List (String × UInt16))
deriving DecidableEq

/-- The first half of an allocation, each request in the world of its own time. -/
def chooseEach (worlds : ℕ → World) (snapshot : Data) (holder : String) (role : Role) (reqs : List Request) :
    Option (List (String × UInt16)) :=
  (reqs.zipIdx.foldlM (fun state req => chooseOne (worlds req.2) holder role state req.1) (snapshot, [])).map Prod.snd

/-- The second half of an allocation, each choice in the world of its own time. -/
def commitEach (worlds : ℕ → World) (d : Data) (holder : String) (role : Role) (reqs : List Request)
    (chosen : List (String × UInt16)) : Option (Data × List (String × UInt16)) :=
  chosen.zipIdx.foldlM (fun state choice => commitOne (worlds choice.2) holder role reqs state choice.1) (d, [])

/-- An allocation: the registry after it, and what it ends in. -/
def allocWith (answers : StoreAnswers) (before at_ : ℕ → World) (snapshot d : Data) (holder : String) (role : Role)
    (reqs : List Request) : Data × Outcome :=
  if !answers.read then (d, .failed)
  else
    match chooseEach before snapshot holder role reqs with
    | none => (d, .panicked)
    | some chosen =>
      if !answers.opened then (d, .failed)
      else
        match commitEach at_ d holder role reqs chosen with
        | none => (d, .panicked)
        | some (d', out) => if answers.saved then (d', .granted out) else (d, .failed)

section Sound

/-- The choices name the requested apps, in order. -/
theorem chooseEach_apps {worlds : ℕ → World} {snapshot : Data} {holder : String} {role : Role} {reqs : List Request}
    {chosen : List (String × UInt16)} (hchoose : chooseEach worlds snapshot holder role reqs = some chosen) :
    chosen.map Prod.fst = reqs.map Request.app := by
  obtain ⟨state, hrun, rfl⟩ := Option.map_eq_some_iff.mp hchoose
  have happs : state.2.map Prod.fst = (reqs.zipIdx.map Prod.fst).map Request.app := by
    refine foldlM_of_step (fun taken state => state.2.map Prod.fst = (taken.map Prod.fst).map Request.app)
      rfl ?_ hrun
    intro taken s req t hs ht
    obtain ⟨data, chosen⟩ := s
    simp only [chooseOne] at ht
    split at ht
    · obtain rfl := Option.some.inj ht
      simp [hs]
    · obtain ⟨port, -, rfl⟩ := Option.map_eq_some_iff.mp ht
      simp [hs]
  rw [happs, List.zipIdx_map_fst]

/-- What a registry and the grants listed so far hold of the registry a commit started from. -/
structure Granting (holder : String) (role : Role) (d : Data) (apps : List String)
    (state : Data × List (String × UInt16)) : Prop where
  named : state.2.map Prod.fst = apps
  kept : ∀ port e, d.Row port e → state.1.Row port e
  taken : ∀ port e, state.1.Row port e → d.Row port e ∨ (d.Free port ∧ e.holder = holder ∧ e.role = role ∧ e.app ∈ apps)
  held : ∀ grant ∈ state.2, ∃ e, state.1.Row grant.2 e ∧ e.owner = ⟨holder, grant.1, role⟩

/-- A grant keeps every row, and takes a free port if any. -/
theorem Grants.rows {world : World} {owner : Owner} {d d' : Data} {port : UInt16}
    (hgrant : Grants world owner d d' port) :
    (∀ other e, d.Row other e → d'.Row other e) ∧
      (∀ other e, d'.Row other e → d.Row other e ∨ (d.Free other ∧ e.owner = owner)) ∧
      ∃ e, d'.Row port e ∧ e.owner = owner := by
  rcases hgrant with ⟨hholds, rfl⟩ | ⟨-, hfree, rfl⟩
  · exact ⟨fun _ _ hrow => hrow, fun _ _ hrow => Or.inl hrow, Data.row_of_holds hholds⟩
  · refine ⟨fun other e hrow => ?_, fun other e hrow => ?_, ?_⟩
    · rw [Data.row_reserve, if_neg]
      · exact hrow
      · rintro rfl
        rw [Data.Row, hfree] at hrow
        contradiction
    · rw [Data.row_reserve] at hrow
      split at hrow
      · rename_i hport
        subst hport
        subst hrow
        exact Or.inr ⟨hfree, rfl⟩
      · exact Or.inl hrow
    · exact ⟨owner.reservation world.now, by rw [Data.row_reserve, if_pos rfl], rfl⟩

/-- One more choice committed. -/
theorem Granting.step {holder : String} {role : Role} {d : Data} {apps : List String} {reqs : List Request}
    {world : World} {state state' : Data × List (String × UInt16)} {choice : String × UInt16}
    (hstate : Granting holder role d apps state) (hcommit : commitOne world holder role reqs state choice =
      some state') :
    Granting holder role d (apps ++ [choice.1]) state' := by
  obtain ⟨port, hout, hgrant⟩ := commitOne_grants hcommit
  obtain ⟨hkept, htaken, hrow⟩ := hgrant.rows
  refine ⟨?_, fun other e hother => hkept other e (hstate.kept other e hother), fun other e hother => ?_, ?_⟩
  · rw [hout, List.map_append, hstate.named]
    rfl
  · rcases htaken other e hother with hbefore | ⟨hfree, howner⟩
    · rcases hstate.taken other e hbefore with hd | ⟨hfree, hholder, hrole, happ⟩
      · exact Or.inl hd
      · exact Or.inr ⟨hfree, hholder, hrole, List.mem_append_left _ happ⟩
    · cases hd : d.entries[other]? with
      | some old =>
        have hold := hstate.kept other old hd
        rw [Data.Row, hfree] at hold
        contradiction
      | none =>
        obtain ⟨hholder, happ, hrole⟩ := Owner.mk.inj howner
        exact Or.inr ⟨hd, hholder, hrole, List.mem_append_right _ (List.mem_singleton.mpr happ)⟩
  · intro grant hmem
    rw [hout, List.mem_append, List.mem_singleton] at hmem
    rcases hmem with hmem | rfl
    · obtain ⟨e, he, howner⟩ := hstate.held grant hmem
      exact ⟨e, hkept _ e he, howner⟩
    · exact hrow

/-- What a whole commit grants. -/
theorem commitEach_granting {worlds : ℕ → World} {d : Data} {holder : String} {role : Role} {reqs : List Request}
    {chosen : List (String × UInt16)} {state : Data × List (String × UInt16)}
    (hcommit : commitEach worlds d holder role reqs chosen = some state) :
    Granting holder role d (chosen.map Prod.fst) state := by
  have hrun := foldlM_of_step
    (fun taken state => Granting holder role d ((taken.map Prod.fst).map Prod.fst) state)
    ⟨rfl, fun _ _ hrow => hrow, fun _ _ hrow => Or.inl hrow, fun grant hmem => absurd hmem List.not_mem_nil⟩
    (fun taken s choice t hs ht => by
      simpa only [List.map_append, List.map_cons, List.map_nil] using hs.step ht) hcommit
  rwa [List.zipIdx_map_fst] at hrun

/-- What an allocation that succeeds chose and committed. -/
theorem committed_of_granted {answers : StoreAnswers} {before at_ : ℕ → World} {snapshot d d' : Data} {holder : String}
    {role : Role} {reqs : List Request} {out : List (String × UInt16)}
    (halloc : allocWith answers before at_ snapshot d holder role reqs = (d', .granted out)) :
    ∃ chosen, chooseEach before snapshot holder role reqs = some chosen ∧
      commitEach at_ d holder role reqs chosen = some (d', out) := by
  unfold allocWith at halloc
  split at halloc
  · cases halloc
  · split at halloc
    · cases halloc
    · rename_i chosen hchosen
      refine ⟨chosen, hchosen, ?_⟩
      split at halloc
      · cases halloc
      · split at halloc
        · cases halloc
        · rename_i hcommit
          split at halloc
          · obtain ⟨rfl, hout⟩ := Prod.mk.inj halloc
            obtain rfl := Outcome.granted.inj hout
            exact hcommit
          · cases halloc

/-- An allocation that succeeds grants, for each request in order, a port with a row of its owner, different ones to
different apps; every row it found is still there, and a port it took was free. -/
theorem allocWith_sound {answers : StoreAnswers} {before at_ : ℕ → World} {snapshot d d' : Data} {holder : String}
    {role : Role} {reqs : List Request} {out : List (String × UInt16)}
    (halloc : allocWith answers before at_ snapshot d holder role reqs = (d', .granted out)) :
    out.map Prod.fst = reqs.map Request.app ∧
      (∀ grant ∈ out, ∃ e, d'.Row grant.2 e ∧ e.owner = ⟨holder, grant.1, role⟩) ∧
      (∀ grant ∈ out, ∀ other ∈ out, grant.1 ≠ other.1 → grant.2 ≠ other.2) ∧
      (∀ port e, d.Row port e → d'.Row port e) ∧
      (∀ port e, d'.Row port e → d.Row port e ∨
        (d.Free port ∧ e.holder = holder ∧ e.role = role ∧ e.app ∈ reqs.map Request.app)) := by
  obtain ⟨chosen, hchosen, hcommit⟩ := committed_of_granted halloc
  have hgranting := commitEach_granting hcommit
  rw [chooseEach_apps hchosen] at hgranting
  refine ⟨hgranting.named, hgranting.held, fun grant hgrant other hother happ hport => ?_, hgranting.kept,
    hgranting.taken⟩
  obtain ⟨e, hrow, howner⟩ := hgranting.held grant hgrant
  obtain ⟨e', hrow', howner'⟩ := hgranting.held other hother
  rw [hport] at hrow
  obtain rfl := hrow.unique hrow'
  exact happ (Owner.mk.inj (howner.symm.trans howner')).2.1

end Sound

section Room

/-- A search from a port finds one exactly when some port from there up to the last is not taken. -/
theorem freeFrom_isSome_iff {taken : UInt16 → Bool} {above : ℕ} {port : UInt16} (habove : port.toNat + above = 65535) :
    (freeFrom taken above port).isSome ↔ ∃ found, port ≤ found ∧ taken found = false := by
  induction above generalizing port with
  | zero =>
    have hlast : ∀ found, port ≤ found → found = port := by
      intro found hfound
      have hsmall := found.toNat_lt
      have hle := UInt16.le_iff_toNat_le.mp hfound
      exact UInt16.toNat_inj.mp (by omega)
    rw [freeFrom]
    constructor
    · intro hsome
      refine ⟨port, UInt16.le_refl port, ?_⟩
      split at hsome
      · contradiction
      · rename_i hfree
        exact Bool.eq_false_iff.mpr hfree
    · rintro ⟨found, hfound, hfree⟩
      rw [← hlast found hfound, hfree]
      rfl
  | succ above ih =>
    have hnext : (port + 1).toNat = port.toNat + 1 := by
      rw [UInt16.toNat_add]
      change (port.toNat + 1) % 65536 = _
      omega
    rw [freeFrom]
    cases htaken : taken port with
    | false => exact ⟨fun _ => ⟨port, UInt16.le_refl port, htaken⟩, fun _ => rfl⟩
    | true =>
      rw [if_pos rfl, ih (by omega)]
      constructor
      · rintro ⟨found, hfound, hfree⟩
        refine ⟨found, UInt16.le_iff_toNat_le.mpr ?_, hfree⟩
        have hle := UInt16.le_iff_toNat_le.mp hfound
        omega
      · rintro ⟨found, hfound, hfree⟩
        have hne : found ≠ port := by
          rintro rfl
          rw [htaken] at hfree
          contradiction
        have hneNat : found.toNat ≠ port.toNat := fun heq => hne (UInt16.toNat_inj.mp heq)
        have hle := UInt16.le_iff_toNat_le.mp hfound
        exact ⟨found, UInt16.le_iff_toNat_le.mpr (by omega), hfree⟩

/-- A search from a base finds a port exactly when some port from the base up to the last is not taken. -/
theorem freePort_isSome_iff {taken : UInt16 → Bool} {base : UInt16} :
    (freePort taken base).isSome ↔ ∃ found, base ≤ found ∧ taken found = false := by
  have hsmall := base.toNat_lt
  exact freeFrom_isSome_iff (by omega)

/-- A request that has to search finds a port from its base on that no row has, no earlier request chose, and nothing
listens on. -/
def RoomToChoose (world : World) (holder : String) (role : Role) (state : Data × List (String × UInt16))
    (req : Request) : Prop :=
  state.1.holds ⟨holder, req.app, role⟩ = none →
    ∃ port, req.base ≤ port ∧ state.1.Free port ∧ port ∉ state.2.map Prod.snd ∧ world.listening port = false

/-- The base an app searches from when its choice is gone. -/
def baseOf (reqs : List Request) (choice : String × UInt16) : UInt16 :=
  ((reqs.find? fun req => req.app == choice.1).map Request.base).getD choice.2

/-- A choice whose port another row took finds a port from its app's base on that no row has and nothing listens on. -/
def RoomToCommit (world : World) (holder : String) (role : Role) (reqs : List Request) (d : Data)
    (choice : String × UInt16) : Prop :=
  d.holds ⟨holder, choice.1, role⟩ = none → ¬ d.Free choice.2 →
    ∃ port, baseOf reqs choice ≤ port ∧ d.Free port ∧ world.listening port = false

/-- A request is chosen a port exactly when it has room. -/
theorem chooseOne_isSome_iff {world : World} {holder : String} {role : Role} {state : Data × List (String × UInt16)}
    {req : Request} : (chooseOne world holder role state req).isSome ↔ RoomToChoose world holder role state req := by
  obtain ⟨d, chosen⟩ := state
  simp only [chooseOne, RoomToChoose]
  cases hholds : d.holds ⟨holder, req.app, role⟩ with
  | some held => simp
  | none =>
    rw [Option.isSome_map, freePort_isSome_iff]
    simp only [← Data.contains_eq_false_iff, Bool.or_eq_false_iff, and_assoc, List.mem_map, not_exists, forall_const,
      List.any_eq_false, beq_iff_eq]
    refine exists_congr fun port => and_congr_right fun _ => and_congr_right fun _ => and_congr_left fun _ => ?_
    exact ⟨fun hfree choice hchosen => hfree choice hchosen.1 hchosen.2, fun hfree choice hmem heq =>
      hfree choice ⟨hmem, heq⟩⟩

/-- A choice is committed exactly when it has room. -/
theorem commitOne_isSome_iff {world : World} {holder : String} {role : Role} {reqs : List Request}
    {state : Data × List (String × UInt16)} {choice : String × UInt16} :
    (commitOne world holder role reqs state choice).isSome ↔ RoomToCommit world holder role reqs state.1 choice := by
  obtain ⟨d, out⟩ := state
  obtain ⟨app, port⟩ := choice
  simp only [commitOne, RoomToCommit, ← Data.contains_eq_false_iff, Bool.not_eq_false]
  cases hholds : d.holds ⟨holder, app, role⟩ with
  | some held => simp
  | none =>
    dsimp only
    by_cases htaken : d.entries.contains port = true
    · rw [if_pos htaken, Option.isSome_map, Data.allocOne, hholds]
      dsimp only
      rw [Option.isSome_map, freePort_isSome_iff]
      simp [htaken, baseOf]
    · rw [if_neg htaken]
      simp [htaken]

/-- Each request that is reached has room, on the snapshot and the choices made before it. -/
def ChoicesHaveRoom (worlds : ℕ → World) (snapshot : Data) (holder : String) (role : Role)
    (reqs : List Request) : Prop :=
  ∀ before req after, reqs.zipIdx = before ++ req :: after → ∀ state,
    before.foldlM (fun state req => chooseOne (worlds req.2) holder role state req.1) (snapshot, []) = some state →
      RoomToChoose (worlds req.2) holder role state req.1

/-- Each choice that is reached has room, in the registry as the choices before it left it. -/
def CommitsHaveRoom (worlds : ℕ → World) (d : Data) (holder : String) (role : Role) (reqs : List Request)
    (chosen : List (String × UInt16)) : Prop :=
  ∀ before choice after, chosen.zipIdx = before ++ choice :: after → ∀ state,
    before.foldlM (fun state choice => commitOne (worlds choice.2) holder role reqs state choice.1) (d, []) =
      some state →
      RoomToCommit (worlds choice.2) holder role reqs state.1 choice.1

/-- An allocation never panics, grants a port for each request when it succeeds, and leaves the registry when
it fails. -/
def Clean (d : Data) (reqs : List Request) (after : Data × Outcome) : Prop :=
  match after.2 with
  | .panicked => False
  | .failed => after.1 = d
  | .granted out => out.map Prod.fst = reqs.map Request.app

/-- An allocation is clean exactly when each search it reaches still has a port. -/
theorem allocWith_clean_iff (answers : StoreAnswers) (before at_ : ℕ → World) (snapshot d : Data) (holder : String)
    (role : Role) (reqs : List Request) :
    Clean d reqs (allocWith answers before at_ snapshot d holder role reqs) ↔
      (answers.read = true → ChoicesHaveRoom before snapshot holder role reqs ∧
        (answers.opened = true → ∀ chosen, chooseEach before snapshot holder role reqs = some chosen →
          CommitsHaveRoom at_ d holder role reqs chosen)) := by
  have hchoices : ChoicesHaveRoom before snapshot holder role reqs ↔
      (chooseEach before snapshot holder role reqs).isSome := by
    rw [chooseEach, Option.isSome_map, foldlM_isSome_iff]
    simp only [chooseOne_isSome_iff]
    rfl
  have hcommits : ∀ chosen, CommitsHaveRoom at_ d holder role reqs chosen ↔
      (commitEach at_ d holder role reqs chosen).isSome := by
    intro chosen
    rw [commitEach, foldlM_isSome_iff]
    simp only [commitOne_isSome_iff]
    rfl
  simp only [hchoices, hcommits]
  cases hread : answers.read with
  | false => simp [allocWith, hread, Clean]
  | true =>
    cases hchoose : chooseEach before snapshot holder role reqs with
    | none => simp [allocWith, hread, hchoose, Clean]
    | some chosen =>
      cases hopened : answers.opened with
      | false => simp [allocWith, hread, hchoose, hopened, Clean]
      | true =>
        cases hcommit : commitEach at_ d holder role reqs chosen with
        | none => simp [allocWith, hread, hchoose, hopened, hcommit, Clean]
        | some state =>
          have hnamed := (commitEach_granting hcommit).named
          rw [chooseEach_apps hchoose] at hnamed
          cases hsaved : answers.saved with
          | false => simp [allocWith, hread, hchoose, hopened, hcommit, hsaved, Clean]
          | true => simp [allocWith, hread, hchoose, hopened, hcommit, hsaved, Clean, hnamed]

end Room

section Samples

/-- A world where nothing listens. -/
def silentWorld : World := ⟨0, fun _ => true, fun _ => true, fun _ => false⟩

/-- A registry where another holder has port 47500. -/
def racedRegistry : Data := Data.empty.reserve ⟨"/gone", "other", .workspace⟩ 47500 0

/-- A store that answers. -/
def answering : StoreAnswers := ⟨true, true, true⟩

/-- An allocation whose choice was taken before it committed. -/
theorem allocWith_sound_sample :
    ∃ e, (allocWith answering (fun _ => silentWorld) (fun _ => silentWorld) Data.empty racedRegistry "/w" .workspace
      [⟨"api", 47400⟩, ⟨"web", 47500⟩]).1.Row 47501 e ∧ e.owner = ⟨"/w", "web", .workspace⟩ := by
  have halloc : allocWith answering (fun _ => silentWorld) (fun _ =>
    silentWorld) Data.empty racedRegistry "/w" .workspace
      [⟨"api", 47400⟩, ⟨"web", 47500⟩] =
        ((allocWith answering (fun _ => silentWorld) (fun _ => silentWorld) Data.empty racedRegistry "/w" .workspace
          [⟨"api", 47400⟩, ⟨"web", 47500⟩]).1, .granted [("api", 47400), ("web", 47501)]) :=
    Prod.ext rfl (by decide +kernel)
  exact (allocWith_sound halloc).2.1 ("web", 47501) (by decide)

/-- A world where the last port is in use. -/
def lastPortInUse : World := ⟨0, fun _ => true, fun _ => true, fun port => port == 65535⟩

/-- An allocation from the last port, which is in use. -/
theorem allocWith_panics :
    ¬ Clean Data.empty [⟨"api", 65535⟩] (allocWith answering (fun _ => lastPortInUse)
      (fun _ => lastPortInUse) Data.empty
      Data.empty "/w" .workspace [⟨"api", 65535⟩]) := by
  have hpanics : (allocWith answering (fun _ => lastPortInUse) (fun _ => lastPortInUse) Data.empty Data.empty "/w"
      .workspace [⟨"api", 65535⟩]).2 = .panicked := by decide +kernel
  unfold Clean
  rw [hpanics]
  exact not_false

end Samples

end Devkit.Ports
