import Mathlib.Data.List.Basic
import Mathlib.Data.List.Induction

/-!
# Stretches of a sequence

Each state of a sequence is held by one key or by none, and the sequence falls into the maximal
stretches its keys hold. A walk that looks at each state once lists them in order: where the holder
changes it closes the stretch under way and opens the next.
-/

namespace Devkit.Library

variable {K : Type*}

/-- A key, the first place it holds, and the place where it no longer does, none while it still does. -/
structure Stretch (K : Type*) where
  key : K
  start : ℕ
  finish : Option ℕ

/-- The stretch is a maximal one of the states that begins among them. -/
structure IsStretch (before : Option K) (states : List (Option K)) (s : Stretch K) : Prop where
  nonempty : s.start < s.finish.getD states.length
  holds : ∀ place, s.start ≤ place → place < s.finish.getD states.length → states[place]? = some (some s.key)
  fresh : (before :: states)[s.start]? ≠ some (some s.key)
  ends : ∀ finish, s.finish = some finish → finish < states.length ∧ states[finish]? ≠ some (some s.key)

/-- A stretch that is still open ends at the place. -/
def Stretch.close (place : ℕ) (s : Stretch K) : Stretch K :=
  { s with finish := some (s.finish.getD place) }

/-- What the walk keeps: the next place, who holds the state before it, and the stretches so far. -/
structure Stretches (K : Type*) where
  place : ℕ
  now : Option K
  found : List (Stretch K)

/-- Look at one more state. -/
def Stretches.next [DecidableEq K] (walk : Stretches K) (state : Option K) : Stretches K :=
  if walk.now = state then { walk with place := walk.place + 1 }
  else
    { place := walk.place + 1
      now := state
      found := walk.found.map (Stretch.close walk.place) ++
        (state.map fun key => (⟨key, walk.place, none⟩ : Stretch K)).toList }

/-- The stretches of the states after one before them. -/
def stretches [DecidableEq K] (before : Option K) (states : List (Option K)) : Stretches K :=
  states.foldl Stretches.next ⟨0, before, []⟩

variable [DecidableEq K]

@[simp] theorem stretches_nil (before : Option K) : stretches before [] = ⟨0, before, []⟩ := rfl

@[simp] theorem stretches_concat (before : Option K) (states : List (Option K)) (state : Option K) :
    stretches before (states ++ [state]) = (stretches before states).next state := by
  rw [stretches, List.foldl_append]
  rfl

/-- Every state is a place. -/
@[simp] theorem stretches_place (before : Option K) (states : List (Option K)) :
    (stretches before states).place = states.length := by
  induction states using List.reverseRecOn with
  | nil => rfl
  | append_singleton states state ih =>
    rw [stretches_concat, Stretches.next, List.length_append, List.length_singleton]
    split
    · exact congrArg (· + 1) ih
    · exact congrArg (· + 1) ih

/-- The walk remembers the last state. -/
theorem stretches_now (before : Option K) (states : List (Option K)) :
    (before :: states)[states.length]? = some (stretches before states).now := by
  induction states using List.reverseRecOn with
  | nil => rfl
  | append_singleton states state ih =>
    have hlast : (before :: (states ++ [state]))[(states ++ [state]).length]? = some state := by simp
    rw [hlast, stretches_concat, Stretches.next]
    split
    next hsame => rw [hsame]
    · rfl

/-- An open stretch holds the last state. -/
theorem IsStretch.now_eq {before : Option K} {states : List (Option K)} {s : Stretch K}
    (h : IsStretch before states s) (hopen : s.finish = none) : (stretches before states).now = some s.key := by
  have hnonempty := h.nonempty
  rw [hopen, Option.getD_none] at hnonempty
  have hlast := h.holds (states.length - 1) (by omega) (by rw [hopen, Option.getD_none]; omega)
  have hnow := stretches_now before states
  obtain ⟨length, hlength⟩ : ∃ length, states.length = length + 1 := ⟨states.length - 1, by omega⟩
  rw [hlength, List.getElem?_cons_succ] at hnow
  rw [hlength, Nat.add_sub_cancel, hnow] at hlast
  exact Option.some.inj hlast

omit [DecidableEq K]

/-- What makes a stretch that ended. -/
theorem isStretch_ended {before : Option K} {states : List (Option K)} {key : K} {start finish : ℕ} :
    IsStretch before states ⟨key, start, some finish⟩ ↔
      start < finish ∧ (∀ place, start ≤ place → place < finish → states[place]? = some (some key)) ∧
        (before :: states)[start]? ≠ some (some key) ∧ finish < states.length ∧ states[finish]? ≠ some (some key) :=
  ⟨fun h => ⟨h.nonempty, h.holds, h.fresh, h.ends finish rfl⟩, fun ⟨hnonempty, hholds, hfresh, hends⟩ =>
    ⟨hnonempty, hholds, hfresh, fun _ hfinish => Option.some.inj hfinish ▸ hends⟩⟩

/-- What makes a stretch that is still open. -/
theorem isStretch_open {before : Option K} {states : List (Option K)} {key : K} {start : ℕ} :
    IsStretch before states ⟨key, start, none⟩ ↔
      start < states.length ∧ (∀ place, start ≤ place → place < states.length → states[place]? = some (some key)) ∧
        (before :: states)[start]? ≠ some (some key) :=
  ⟨fun h => ⟨h.nonempty, h.holds, h.fresh⟩, fun ⟨hnonempty, hholds, hfresh⟩ =>
    ⟨hnonempty, hholds, hfresh, fun _ hfinish => nomatch hfinish⟩⟩

/-- The states of a sequence stay where they are when one is added. -/
theorem getElem?_concat_lt {A : Type*} {values : List A} {value : A} {place : ℕ} (hplace : place < values.length) :
    (values ++ [value])[place]? = values[place]? :=
  List.getElem?_append_left hplace

/-- The state before a place stays where it is when one is added. -/
theorem getElem?_cons_concat {A : Type*} {before value : A} {values : List A} {place : ℕ}
    (hplace : place ≤ values.length) : (before :: (values ++ [value]))[place]? = (before :: values)[place]? := by
  rw [← List.cons_append]
  exact List.getElem?_append_left (by rw [List.length_cons]; omega)

/-- A stretch that ended before the last state is one without that state too. -/
theorem isStretch_concat_ended {before : Option K} {states : List (Option K)} {state : Option K} {key : K}
    {start finish : ℕ} (hfinish : finish < states.length) :
    IsStretch before (states ++ [state]) ⟨key, start, some finish⟩ ↔
      IsStretch before states ⟨key, start, some finish⟩ := by
  rw [isStretch_ended, isStretch_ended]
  refine and_congr_right fun hstart => and_congr ?_ (and_congr ?_ (and_congr ?_ ?_))
  · refine forall_congr' fun place => forall_congr' fun _ => forall_congr' fun hplace => ?_
    rw [getElem?_concat_lt (by omega)]
  · rw [getElem?_cons_concat (by omega)]
  · rw [List.length_append]
    exact ⟨fun _ => hfinish, fun _ => by omega⟩
  · rw [getElem?_concat_lt hfinish]

/-- A stretch ends at the last state where it was open before and another holds now. -/
theorem isStretch_concat_closed {before : Option K} {states : List (Option K)} {state : Option K} {key : K}
    {start : ℕ} : IsStretch before (states ++ [state]) ⟨key, start, some states.length⟩ ↔
      IsStretch before states ⟨key, start, none⟩ ∧ state ≠ some key := by
  rw [isStretch_ended, isStretch_open, and_assoc, and_assoc]
  refine and_congr_right fun hstart => and_congr ?_ (and_congr ?_ ?_)
  · refine forall_congr' fun place => forall_congr' fun _ => forall_congr' fun hplace => ?_
    rw [getElem?_concat_lt hplace]
  · rw [getElem?_cons_concat (Nat.le_of_lt hstart)]
  · rw [List.length_append, List.getElem?_concat_length]
    exact ⟨fun h hstate => h.2 (congrArg some hstate), fun h => ⟨by simp, fun hstate => h (Option.some.inj hstate)⟩⟩

/-- A stretch is open at the last state where it was open before, or begins with that state. -/
theorem isStretch_concat_open [DecidableEq K] {before : Option K} {states : List (Option K)} {state : Option K}
    {key : K} {start : ℕ} : IsStretch before (states ++ [state]) ⟨key, start, none⟩ ↔
      state = some key ∧ (IsStretch before states ⟨key, start, none⟩ ∨
        start = states.length ∧ (stretches before states).now ≠ some key) := by
  rw [isStretch_open, isStretch_open, List.length_append, List.length_singleton]
  constructor
  · rintro ⟨hstart, hholds, hfresh⟩
    have hlast := hholds states.length (by omega) (by omega)
    rw [List.getElem?_concat_length] at hlast
    refine ⟨Option.some.inj hlast, ?_⟩
    by_cases hnew : start = states.length
    · right
      rw [hnew, getElem?_cons_concat (Nat.le_refl _), stretches_now] at hfresh
      exact ⟨hnew, fun hnow => hfresh (congrArg some hnow)⟩
    · left
      refine ⟨by omega, fun place hfrom hplace => ?_, ?_⟩
      · rw [← getElem?_concat_lt hplace]
        exact hholds place hfrom (by omega)
      · rw [← getElem?_cons_concat (by omega)]
        exact hfresh
  · rintro ⟨hstate, hopen⟩
    cases hopen with
    | inl hopen =>
      obtain ⟨hstart, hholds, hfresh⟩ := hopen
      refine ⟨by omega, fun place hfrom hplace => ?_, ?_⟩
      · by_cases hlast : place = states.length
        · rw [hlast, List.getElem?_concat_length, hstate]
        · rw [getElem?_concat_lt (by omega)]
          exact hholds place hfrom (by omega)
      · rw [getElem?_cons_concat (by omega)]
        exact hfresh
    | inr hnew =>
      obtain ⟨hstart, hnow⟩ := hnew
      refine ⟨by omega, fun place hfrom hplace => ?_, ?_⟩
      · obtain rfl : place = states.length := by omega
        rw [List.getElem?_concat_length, hstate]
      · rw [hstart, getElem?_cons_concat (Nat.le_refl _), stretches_now]
        exact fun hsome => hnow (Option.some.inj hsome)

/-- No stretch ends after the last state. -/
theorem not_isStretch_of_lt {before : Option K} {states : List (Option K)} {key : K} {start finish : ℕ}
    (hfinish : states.length ≤ finish) : ¬ IsStretch before states ⟨key, start, some finish⟩ :=
  fun h => Nat.not_lt_of_le hfinish (h.ends finish rfl).1

variable [DecidableEq K]

/-- What one more state leaves of the stretches found. -/
theorem mem_next {walk : Stretches K} {state : Option K} (hchange : walk.now ≠ state) {s : Stretch K} :
    s ∈ (walk.next state).found ↔
      (∃ old ∈ walk.found, old.close walk.place = s) ∨ ∃ key, state = some key ∧ s = ⟨key, walk.place, none⟩ := by
  rw [Stretches.next, if_neg hchange, List.mem_append, List.mem_map]
  cases state with
  | none => simp
  | some key => simp

/-- The walk finds exactly the maximal stretches that begin among the states. -/
theorem mem_stretches (before : Option K) (states : List (Option K)) (s : Stretch K) :
    s ∈ (stretches before states).found ↔ IsStretch before states s := by
  induction states using List.reverseRecOn generalizing s with
  | nil =>
    refine ⟨fun h => absurd h List.not_mem_nil, fun h => ?_⟩
    obtain ⟨key, start, finish⟩ := s
    cases finish with
    | none => exact absurd (isStretch_open.mp h).1 (Nat.not_lt_zero _)
    | some finish => exact absurd h (not_isStretch_of_lt (Nat.zero_le _))
  | append_singleton states state ih =>
    obtain ⟨key, start, finish⟩ := s
    rw [stretches_concat]
    by_cases hsame : (stretches before states).now = state
    · have hfound : ((stretches before states).next state).found = (stretches before states).found := by
        rw [Stretches.next, if_pos hsame]
      rw [hfound, ih]
      cases finish with
      | none =>
        rw [isStretch_concat_open]
        constructor
        · intro hopen
          exact ⟨hsame ▸ hopen.now_eq rfl, Or.inl hopen⟩
        · intro ⟨hstate, hopen⟩
          exact hopen.resolve_right fun hnew => hnew.2 (hsame.trans hstate)
      | some finish =>
        rcases Nat.lt_trichotomy finish states.length with hlt | rfl | hgt
        · exact (isStretch_concat_ended hlt).symm
        · rw [isStretch_concat_closed]
          exact ⟨fun h => absurd h (not_isStretch_of_lt (Nat.le_refl _)),
            fun ⟨hopen, hstate⟩ => absurd (hsame ▸ hopen.now_eq rfl) hstate⟩
        · exact ⟨fun h => absurd h (not_isStretch_of_lt (Nat.le_of_lt hgt)),
            fun h => absurd h (not_isStretch_of_lt (by rw [List.length_append]; exact hgt))⟩
    · rw [mem_next hsame, stretches_place]
      cases finish with
      | none =>
        rw [isStretch_concat_open]
        constructor
        · rintro (⟨old, _, hclose⟩ | ⟨key', hstate, hnew⟩)
          · cases hclose
          · cases hnew
            exact ⟨hstate, Or.inr ⟨rfl, fun hnow => hsame (hnow.trans hstate.symm)⟩⟩
        · rintro ⟨hstate, hopen | ⟨rfl, _⟩⟩
          · exact absurd ((hopen.now_eq rfl).trans hstate.symm) hsame
          · exact Or.inr ⟨key, hstate, rfl⟩
      | some finish =>
        have hclosed : (∃ old ∈ (stretches before states).found, old.close states.length = ⟨key, start, some finish⟩) ↔
            IsStretch before states ⟨key, start, some finish⟩ ∨
              finish = states.length ∧ IsStretch before states ⟨key, start, none⟩ := by
          constructor
          · rintro ⟨⟨key', start', finish'⟩, hold, hclose⟩
            cases finish' with
            | none => cases hclose; exact Or.inr ⟨rfl, (ih _).mp hold⟩
            | some finish' => cases hclose; exact Or.inl ((ih _).mp hold)
          · rintro (hended | ⟨rfl, hopen⟩)
            · exact ⟨_, (ih _).mpr hended, rfl⟩
            · exact ⟨_, (ih _).mpr hopen, rfl⟩
        rw [hclosed]
        rcases Nat.lt_trichotomy finish states.length with hlt | rfl | hgt
        · rw [isStretch_concat_ended hlt]
          constructor
          · rintro ((hended | ⟨rfl, _⟩) | ⟨_, _, hnew⟩)
            · exact hended
            · exact absurd hlt (Nat.lt_irrefl _)
            · cases hnew
          · exact fun h => Or.inl (Or.inl h)
        · rw [isStretch_concat_closed]
          constructor
          · rintro ((hended | ⟨_, hopen⟩) | ⟨_, _, hnew⟩)
            · exact absurd hended (not_isStretch_of_lt (Nat.le_refl _))
            · exact ⟨hopen, fun hstate => hsame ((hopen.now_eq rfl).trans hstate.symm)⟩
            · cases hnew
          · exact fun h => Or.inl (Or.inr ⟨rfl, h.1⟩)
        · constructor
          · rintro ((hended | ⟨rfl, _⟩) | ⟨_, _, hnew⟩)
            · exact absurd hended (not_isStretch_of_lt (Nat.le_of_lt hgt))
            · exact absurd hgt (Nat.lt_irrefl _)
            · cases hnew
          · exact fun h => absurd h (not_isStretch_of_lt (by rw [List.length_append]; exact hgt))

/-- Where the last state is not the one before the sequence, some state differs from that one. -/
theorem exists_ne_before {before : Option K} {states : List (Option K)}
    (hnow : (stretches before states).now ≠ before) : ∃ state ∈ states, state ≠ before := by
  refine ⟨(stretches before states).now, ?_, hnow⟩
  have hlast := List.mem_of_getElem? (stretches_now before states)
  exact (List.mem_cons.mp hlast).resolve_left hnow

/-- A key has an open stretch where it holds the last state and has not held from before the first. -/
theorem exists_open_iff (before : Option K) (states : List (Option K)) (key : K) :
    (∃ s ∈ (stretches before states).found, s.finish = none ∧ s.key = key) ↔
      (stretches before states).now = some key ∧ (before = some key → ∃ state ∈ states, state ≠ some key) := by
  induction states using List.reverseRecOn with
  | nil => simp
  | append_singleton states state ih =>
    rw [stretches_concat]
    by_cases hsame : (stretches before states).now = state
    · have hnext : (stretches before states).next state =
          { stretches before states with place := (stretches before states).place + 1 } := by
        rw [Stretches.next, if_pos hsame]
      rw [hnext]
      refine ih.trans (and_congr_right fun hnow => imp_congr_right fun _ => ?_)
      have hstate : state = some key := hsame.symm.trans hnow
      simp [hstate]
    · have hnow : ((stretches before states).next state).now = state := by rw [Stretches.next, if_neg hsame]
      rw [hnow]
      constructor
      · rintro ⟨s, hs, hopen, rfl⟩
        rcases (mem_next hsame).mp hs with ⟨old, _, rfl⟩ | ⟨key, rfl, rfl⟩
        · cases hopen
        · refine ⟨rfl, fun hbefore => ?_⟩
          obtain ⟨other, hother, hne⟩ := exists_ne_before (hbefore ▸ hsame)
          exact ⟨other, List.mem_append_left _ hother, hbefore ▸ hne⟩
      · rintro ⟨rfl, _⟩
        exact ⟨_, (mem_next hsame).mpr (Or.inr ⟨key, rfl, rfl⟩), rfl, rfl⟩

/-- The stretches stand in order: each but the last ended before the next began. -/
theorem stretches_pairwise (before : Option K) (states : List (Option K)) :
    (stretches before states).found.Pairwise fun a b => ∃ finish, a.finish = some finish ∧ finish ≤ b.start := by
  induction states using List.reverseRecOn with
  | nil => exact List.Pairwise.nil
  | append_singleton states state ih =>
    rw [stretches_concat, Stretches.next]
    split
    · exact ih
    · refine List.pairwise_append.mpr ⟨?_, ?_, ?_⟩
      · refine List.pairwise_map.mpr (ih.imp fun ⟨finish, hfinish, hle⟩ => ⟨finish, ?_, hle⟩)
        rw [Stretch.close, hfinish, Option.getD_some]
      · cases state with
        | none => exact List.Pairwise.nil
        | some key => exact List.pairwise_singleton _ _
      · intro closed hclosed new hnew
        obtain ⟨old, hold, rfl⟩ := List.mem_map.mp hclosed
        have hstretch := (mem_stretches before states old).mp hold
        rw [stretches_place] at hnew ⊢
        obtain ⟨key, _, rfl⟩ := Option.map_eq_some_iff.mp (Option.mem_toList.mp hnew)
        refine ⟨_, rfl, ?_⟩
        cases hfinish : old.finish with
        | none => exact Nat.le_refl _
        | some finish => exact Nat.le_of_lt (hstretch.ends finish hfinish).1

end Devkit.Library
