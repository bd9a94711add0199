import Devkit.Common.Store
import Devkit.Todos.Segment

/-!
# What an update of the store loses

An update keeps what it cannot read when that was text and could be moved aside, and then only by moving it: the data
file is gone when the action or the write fails. What is not text, or cannot be read at all, is taken for a missing file
and written over. Everything else the file may hold is kept.
-/

namespace Devkit.Common

open Devkit.Library
open Devkit.Todos (toStr_bytes)

namespace Document

variable {D E T : Type} (doc : Document D) (calls : Calls)

/-- The contents are blank text. -/
def blank (contents : OsStr) : Bool := (toStr contents).any trimIsEmpty

/-- The contents are read, and parse or can be salvaged. -/
def understood (contents : OsStr) : Bool :=
  calls.reads && (toStr contents).any fun text => (doc.fromStr text).isSome || (doc.salvage text).isSome

/-- The contents are text that is read and can be moved aside. -/
def movable (contents : OsStr) : Bool := calls.reads && (toStr contents).isSome && calls.backsUp

/-- The update of a document is printed, written and put in place. -/
def succeedsFrom (f : D → Except E (T × D)) (data : D) : Prop :=
  ∃ out next bytes, f data = .ok (out, next) ∧ doc.toVecPretty (doc.stampVersion next) = some bytes ∧
    calls.writes = true ∧ calls.replaces = true

/-- An update destroys nothing: contents that could be neither parsed nor salvaged are in the backup once it has
replaced them, a failed one leaves the data file as it was, and a later reader reads what it stored. -/
structure Safe (f : D → Except E (T × D)) (files : Files) : Prop where
  backedUp : ∀ contents out, files.data = some contents → blank contents = false →
    doc.understood calls contents = false → (doc.withLock calls f files).2 = .ok out →
    (doc.withLock calls f files).1.bak = some contents
  unchanged : ∀ reason, (doc.withLock calls f files).2 = .error reason →
    (doc.withLock calls f files).1.data = files.data
  readsBack : ∀ out, (doc.withLock calls f files).2 = .ok out →
    ∃ next, f (doc.read calls files).2 = .ok (out, next) ∧ ∀ later : Calls, later.reads = true →
      doc.read later (doc.withLock calls f files).1 = ((doc.withLock calls f files).1, doc.stampVersion next)

/-- What is in the file is understood, or is moved aside by an update that succeeds, or is left in place by one that
fails, unless the backup already has it. -/
def Recoverable (f : D → Except E (T × D)) (files : Files) : Prop :=
  calls.locks = true → ∀ contents, files.data = some contents → blank contents = false →
    doc.understood calls contents = false →
      (movable calls contents = true → doc.succeedsFrom calls f doc.default) ∧
      (movable calls contents = false → doc.succeedsFrom calls f doc.default → files.bak = some contents)

/-- What reading does, by what the data file holds. -/
theorem read_cases (files : Files) :
    (files.data = none ∧ doc.read calls files = (files, doc.default)) ∨ ∃ contents, files.data = some contents ∧
      (blank contents = true ∧ doc.read calls files = (files, doc.default) ∨
        blank contents = false ∧ doc.understood calls contents = true ∧ (∃ d, doc.read calls files = (files, d)) ∨
        blank contents = false ∧ doc.understood calls contents = false ∧
          (movable calls contents = true ∧
              doc.read calls files = ({ files with data := none, bak := some contents }, doc.default) ∨
            movable calls contents = false ∧ doc.read calls files = (files, doc.default))) := by
  cases hdata : files.data with
  | none => exact Or.inl ⟨rfl, by simp [read, hdata]⟩
  | some contents =>
    refine Or.inr ⟨contents, rfl, ?_⟩
    cases hreads : calls.reads with
    | false =>
      have hread : doc.read calls files = (files, doc.default) := by simp [read, hreads]
      cases hblank : blank contents with
      | true => exact Or.inl ⟨rfl, hread⟩
      | false => exact Or.inr (Or.inr ⟨rfl, by simp [understood, hreads], Or.inr ⟨by simp [movable, hreads], hread⟩⟩)
    | true =>
      cases htext : toStr contents with
      | none =>
        have hread : doc.read calls files = (files, doc.default) := by simp [read, hreads, hdata, htext]
        refine Or.inr (Or.inr ⟨by simp [blank, htext], by simp [understood, htext], Or.inr ⟨?_, hread⟩⟩)
        simp [movable, htext]
      | some text =>
        cases hblank : trimIsEmpty text with
        | true =>
          exact Or.inl ⟨by simp [blank, htext, hblank], by simp [read, hreads, hdata, htext, hblank]⟩
        | false =>
          have hnonblank : blank contents = false := by simp [blank, htext, hblank]
          right
          cases hparse : doc.fromStr text with
          | some d =>
            refine Or.inl ⟨hnonblank, by simp [understood, hreads, htext, hparse], d, ?_⟩
            simp [read, hreads, hdata, htext, hblank, hparse]
          | none =>
            cases hsalvage : doc.salvage text with
            | some d =>
              refine Or.inl ⟨hnonblank, by simp [understood, hreads, htext, hsalvage], d, ?_⟩
              simp [read, hreads, hdata, htext, hblank, hparse, hsalvage]
            | none =>
              refine Or.inr ⟨hnonblank, by simp [understood, htext, hparse, hsalvage], ?_⟩
              cases hbacksUp : calls.backsUp with
              | true =>
                refine Or.inl ⟨by simp [movable, hreads, htext, hbacksUp], ?_⟩
                simp [read, hreads, hdata, htext, hblank, hparse, hsalvage, hbacksUp]
              | false =>
                refine Or.inr ⟨by simp [movable, hbacksUp], ?_⟩
                simp [read, hreads, hdata, htext, hblank, hparse, hsalvage, hbacksUp]

/-- A document salvaged through a map, of text that parses but not as the document, loses only the members whose key or
value does not parse. -/
theorem read_salvaged {J K V : Type} [Ord K] [Std.TransOrd K] [Std.LawfulEqOrd K] [DecidableEq K]
    {members : String → String → Option (List (String × J))} {parseKey : String → Option K}
    {fromValue : J → Option V} {field : String} {build : Std.ExtTreeMap K V → D}
    (hsalvage : ∀ raw, doc.salvage raw = (salvageMap members parseKey fromValue raw field).map build)
    {files : Files} {contents : OsStr} {text : String} {rows : List (String × J)} (hreads : calls.reads = true)
    (hdata : files.data = some contents) (htext : toStr contents = some text) (hblank : trimIsEmpty text = false)
    (hparse : doc.fromStr text = none) (hrows : members text field = some rows) :
    ∃ out, doc.read calls files = (files, build out) ∧
      ∀ key, key ∈ out ↔ ∃ member ∈ rows, parseKey member.1 = some key ∧ (fromValue member.2).isSome := by
  obtain ⟨out, hout, hkeys⟩ := @mem_salvageMap J K V _ _ _ _ members parseKey fromValue text field rows hrows
  refine ⟨out, ?_, hkeys⟩
  simp [read, hreads, hdata, htext, hblank, hparse, hsalvage, hout]

/-- An update that succeeds puts what it printed in place of the data file. -/
theorem withLock_of_succeeds {f : D → Except E (T × D)} {files : Files} {out : T} {next : D} {bytes : OsStr}
    (hlocks : calls.locks = true) (hf : f (doc.read calls files).2 = .ok (out, next))
    (hprint : doc.toVecPretty (doc.stampVersion next) = some bytes) (hwrites : calls.writes = true)
    (hreplaces : calls.replaces = true) :
    doc.withLock calls f files = ({ (doc.read calls files).1 with data := some bytes, tmp := none }, .ok out) := by
  simp [withLock, withLockVia, write, hlocks, hf, hprint, hwrites, hreplaces]

/-- An update that fails leaves the data file as reading left it. -/
theorem withLock_of_fails {f : D → Except E (T × D)} {files : Files} (hlocks : calls.locks = true)
    (hfails : ¬ doc.succeedsFrom calls f (doc.read calls files).2) :
    (∃ reason, (doc.withLock calls f files).2 = .error reason) ∧
      (doc.withLock calls f files).1.data = (doc.read calls files).1.data := by
  simp only [withLock, withLockVia, hlocks]
  cases hf : f (doc.read calls files).2 with
  | error reason => simp
  | ok result =>
    obtain ⟨out, next⟩ := result
    cases hprint : doc.toVecPretty (doc.stampVersion next) with
    | none => simp [write, hprint]
    | some bytes =>
      cases hwrites : calls.writes with
      | false => simp [write, hprint, hwrites]
      | true =>
        cases hreplaces : calls.replaces with
        | false => simp [write, hprint, hwrites, hreplaces]
        | true => exact absurd ⟨out, next, bytes, hf, hprint, hwrites, hreplaces⟩ hfails

/-- An update without the lock does nothing. -/
theorem withLock_of_unlocked {f : D → Except E (T × D)} {files : Files} (hlocks : calls.locks = false) :
    doc.withLock calls f files = (files, .error .lock) := by
  simp [withLock, withLockVia, hlocks]

/-- An update with a result had the lock, and succeeded from what was read. -/
theorem withLock_ok {f : D → Except E (T × D)} {files : Files} {out : T}
    (hok : (doc.withLock calls f files).2 = .ok out) :
    calls.locks = true ∧ ∃ next bytes, f (doc.read calls files).2 = .ok (out, next) ∧
      doc.toVecPretty (doc.stampVersion next) = some bytes ∧
      (doc.withLock calls f files).1 = { (doc.read calls files).1 with data := some bytes, tmp := none } ∧
      doc.succeedsFrom calls f (doc.read calls files).2 := by
  cases hlocks : calls.locks with
  | false =>
    rw [withLock_of_unlocked doc calls hlocks] at hok
    contradiction
  | true =>
    refine ⟨rfl, ?_⟩
    by_cases hsucceeds : doc.succeedsFrom calls f (doc.read calls files).2
    · obtain ⟨other, next, bytes, hf, hprint, hwrites, hreplaces⟩ := hsucceeds
      have hrun := withLock_of_succeeds doc calls hlocks hf hprint hwrites hreplaces
      rw [hrun] at hok ⊢
      obtain rfl := Except.ok.inj hok
      exact ⟨next, bytes, hf, hprint, rfl, other, next, bytes, hf, hprint, hwrites, hreplaces⟩
    · obtain ⟨⟨reason, hreason⟩, -⟩ := withLock_of_fails doc calls hlocks hsucceeds
      rw [hreason] at hok
      contradiction

/-- A failed update did not succeed, or had no lock. -/
theorem not_succeeds_of_error {f : D → Except E (T × D)} {files : Files} {reason : StoreError E}
    (herror : (doc.withLock calls f files).2 = .error reason) (hlocks : calls.locks = true) :
    ¬ doc.succeedsFrom calls f (doc.read calls files).2 := by
  rintro ⟨out, next, bytes, hf, hprint, hwrites, hreplaces⟩
  rw [withLock_of_succeeds doc calls hlocks hf hprint hwrites hreplaces] at herror
  contradiction

variable {doc calls}

/-- A safe update leaves what it cannot understand where it can be found. -/
theorem Safe.recoverable {f : D → Except E (T × D)} {files : Files} (hsafe : Safe doc calls f files) :
    Recoverable doc calls f files := by
  intro hlocks contents hdata hblank hunderstood
  rcases read_cases doc calls files with ⟨hnone, -⟩ | ⟨other, hother, hcases⟩
  · rw [hnone] at hdata
    contradiction
  · obtain rfl := Option.some.inj (hother.symm.trans hdata)
    rcases hcases with ⟨htrue, -⟩ | ⟨-, htrue, -⟩ | ⟨-, -, ⟨hmove, hread⟩ | ⟨hmove, hread⟩⟩
    · rw [htrue] at hblank
      contradiction
    · rw [htrue] at hunderstood
      contradiction
    · refine ⟨fun _ => ?_, fun hno => by rw [hmove] at hno; contradiction⟩
      by_contra hfails
      have hfailsRead : ¬ doc.succeedsFrom calls f (doc.read calls files).2 := by
        rw [hread]
        exact hfails
      obtain ⟨⟨reason, hreason⟩, hleft⟩ := withLock_of_fails doc calls hlocks hfailsRead
      have hkept := hsafe.unchanged reason hreason
      rw [hleft, hread, hdata] at hkept
      contradiction
    · refine ⟨fun hyes => (by rw [hmove] at hyes; contradiction), fun _ hsucceeds => ?_⟩
      obtain ⟨out, next, bytes, hf, hprint, hwrites, hreplaces⟩ := hsucceeds
      have hfRead : f (doc.read calls files).2 = .ok (out, next) := by
        rw [hread]
        exact hf
      have hrun := withLock_of_succeeds doc calls hlocks hfRead hprint hwrites hreplaces
      have hbak := hsafe.backedUp other out hdata hblank hunderstood (by rw [hrun])
      rw [hrun, hread] at hbak
      exact hbak

/-- An update that leaves what it cannot understand where it can be found is safe. -/
theorem Recoverable.safe {f : D → Except E (T × D)} {files : Files}
    (hround : ∀ d bytes, doc.toVecPretty d = some bytes → ∃ text, toStr bytes = some text ∧ doc.fromStr text = some d)
    (hempty : ∀ text, trimIsEmpty text = true → doc.fromStr text = none) (hrec : Recoverable doc calls f files) :
    Safe doc calls f files := by
  refine ⟨fun contents out hdata hblank hunderstood hok => ?_, fun reason herror => ?_, fun out hok => ?_⟩
  · obtain ⟨hlocks, next, bytes, -, -, hrun, hsucceeds⟩ := withLock_ok doc calls hok
    rw [hrun]
    rcases read_cases doc calls files with ⟨hnone, -⟩ | ⟨other, hother, hcases⟩
    · rw [hnone] at hdata
      contradiction
    · obtain rfl := Option.some.inj (hother.symm.trans hdata)
      rcases hcases with ⟨htrue, -⟩ | ⟨-, htrue, -⟩ | ⟨-, -, ⟨-, hread⟩ | ⟨hmove, hread⟩⟩
      · rw [htrue] at hblank
        contradiction
      · rw [htrue] at hunderstood
        contradiction
      · rw [hread]
      · rw [hread] at hsucceeds ⊢
        exact (hrec hlocks other hdata hblank hunderstood).2 hmove hsucceeds
  · cases hlocks : calls.locks with
    | false => rw [withLock_of_unlocked doc calls hlocks]
    | true =>
      have hfails := not_succeeds_of_error doc calls herror hlocks
      rw [(withLock_of_fails doc calls hlocks hfails).2]
      rcases read_cases doc calls files with ⟨-, hread⟩ | ⟨contents, hdata, hcases⟩
      · rw [hread]
      · rcases hcases with ⟨-, hread⟩ | ⟨-, -, d, hread⟩ | ⟨hblank, hunderstood, ⟨hmove, hread⟩ | ⟨-, hread⟩⟩
        · rw [hread]
        · rw [hread]
        · rw [hread] at hfails
          exact absurd ((hrec hlocks contents hdata hblank hunderstood).1 hmove) hfails
        · rw [hread]
  · obtain ⟨-, next, bytes, hf, hprint, hrun, -⟩ := withLock_ok doc calls hok
    refine ⟨next, hf, fun later hreads => ?_⟩
    obtain ⟨text, htext, hparse⟩ := hround _ bytes hprint
    have hnonblank : trimIsEmpty text = false := by
      refine Bool.eq_false_iff.mpr fun hblank => ?_
      rw [hempty text hblank] at hparse
      contradiction
    rw [hrun]
    simp [read, hreads, htext, hnonblank, hparse]

/-- An update of the store destroys nothing exactly when what is in the file is understood, or moved aside by an update
that succeeds, or left in place by one that fails. The JSON library reads back what it prints, and no blank text. -/
theorem withLock_safe_iff (doc : Document D) (calls : Calls) (f : D → Except E (T × D)) (files : Files)
    (hround : ∀ d bytes, doc.toVecPretty d = some bytes → ∃ text, toStr bytes = some text ∧ doc.fromStr text = some d)
    (hempty : ∀ text, trimIsEmpty text = true → doc.fromStr text = none) :
    Safe doc calls f files ↔ Recoverable doc calls f files :=
  ⟨Safe.recoverable, Recoverable.safe hround hempty⟩

section Example

/-- A document of one flag, printed as the JSON library prints it. -/
def flagDocument : Document Bool where
  default := false
  stampVersion := id
  salvage _ := none
  fromStr text := if text = "true" then some true else if text = "false" then some false else none
  toVecPretty flag := some (bytes (if flag then "true" else "false"))

/-- Calls that all succeed. -/
def allSucceed : Calls := ⟨true, true, true, true, none, true⟩

/-- An action that sets the flag. -/
def setFlag (_ : Bool) : Except Unit (Unit × Bool) := .ok ((), true)

/-- Setting the flag of a file whose text is no document moves the text aside. -/
theorem withLock_safe_iff_sample : Safe flagDocument allSucceed setFlag ⟨some (bytes "oops"), none, none⟩ := by
  refine (withLock_safe_iff flagDocument allSucceed setFlag _ ?_ ?_).mpr ?_
  · intro flag printed hprint
    obtain rfl := Option.some.inj hprint
    exact ⟨_, toStr_bytes (if flag then "true" else "false"), by cases flag <;> decide⟩
  · intro text hblank
    have htrue : text ≠ "true" := fun heq => absurd (heq ▸ hblank) (by decide +kernel)
    have hfalse : text ≠ "false" := fun heq => absurd (heq ▸ hblank) (by decide +kernel)
    exact (if_neg htrue).trans (if_neg hfalse)
  · intro _ contents hdata _ _
    obtain rfl := Option.some.inj hdata
    have hmovable : movable allSucceed (bytes "oops") = true := by decide +kernel
    exact ⟨fun _ => ⟨(), true, bytes "true", rfl, rfl, rfl, rfl⟩, fun hno => absurd hmovable (by simp [hno])⟩

/-- Setting the flag of a file that is not UTF-8 leaves its bytes nowhere. -/
theorem withLock_unsafe : ¬ Safe flagDocument allSucceed setFlag ⟨some [0xff], none, none⟩ := by
  intro hsafe
  have hread : flagDocument.read allSucceed ⟨some [0xff], none, none⟩ = (⟨some [0xff], none, none⟩, false) := by
    decide +kernel
  have hset : setFlag (flagDocument.read allSucceed ⟨some [0xff], none, none⟩).2 = .ok ((), true) := rfl
  have hrun := withLock_of_succeeds flagDocument allSucceed rfl hset rfl rfl rfl
  rw [hread] at hrun
  have hbak := hsafe.backedUp [0xff] () rfl (by decide +kernel) (by decide +kernel) (by rw [hrun])
  rw [hrun] at hbak
  contradiction

end Example

end Document

end Devkit.Common
