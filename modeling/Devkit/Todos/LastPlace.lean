import Devkit.Todos.Kept
import Devkit.Todos.TwinPlaces
import Devkit.Todos.TwinRuns

/-!
# The place after the last sibling

A todo placed with no order of its own goes one gap after the greatest order of its siblings. Both stores add in
machine integers, and the taskchampion store reads the text of the sum back through a double. The siblings are those
the store counts: the todos on the node under the parent, other than the one moved.
-/

namespace Devkit.Todos

open Devkit.Library
open Std

section Sums

/-- The greatest order of some todos, zero where there is none. -/
def greatestOrder (siblings : List Todo) : Int64 := (siblings.filterMap Todo.order).max?.getD 0

/-- Every order of some todos has room for one more gap. -/
def HaveRoom (siblings : List Todo) : Prop :=
  ∀ sibling ∈ siblings, ∀ order, sibling.order = some order → order.toInt + orderGap.toInt ≤ Int64.maxValue.toInt

/-- The order is greater than that of each of some todos. -/
def After (siblings : List Todo) (placed : Option Int64) : Prop :=
  ∃ order, placed = some order ∧ ∀ sibling ∈ siblings, ∀ other, sibling.order = some other → other < order

/-- No order of some todos is greater than the greatest. -/
theorem le_greatestOrder {siblings : List Todo} {sibling : Todo} (hsibling : sibling ∈ siblings) {order : Int64}
    (horder : sibling.order = some order) : order ≤ greatestOrder siblings := by
  have hmem : order ∈ siblings.filterMap Todo.order := List.mem_filterMap.mpr ⟨sibling, hsibling, horder⟩
  unfold greatestOrder
  cases hmax : (siblings.filterMap Todo.order).max? with
  | none =>
    rw [List.max?_eq_none_iff] at hmax
    rw [hmax] at hmem
    exact absurd hmem List.not_mem_nil
  | some greatest => exact (List.max?_eq_some_iff.mp hmax).2 order hmem

/-- The greatest order is zero or the order of some todo. -/
theorem greatestOrder_cases (siblings : List Todo) :
    greatestOrder siblings = 0 ∨ ∃ sibling ∈ siblings, sibling.order = some (greatestOrder siblings) := by
  unfold greatestOrder
  cases hmax : (siblings.filterMap Todo.order).max? with
  | none => exact Or.inl rfl
  | some greatest =>
    obtain ⟨sibling, hsibling, horder⟩ := List.mem_filterMap.mp (List.max?_eq_some_iff.mp hmax).1
    exact Or.inr ⟨sibling, hsibling, horder⟩

/-- A gap is 1024. -/
theorem orderGap_toInt : orderGap.toInt = 1024 := by decide

/-- The sum of an order and a gap is exact when it does not pass the greatest integer. -/
theorem toInt_add_gap {order : Int64} (hroom : order.toInt + orderGap.toInt ≤ Int64.maxValue.toInt) :
    (order + orderGap).toInt = order.toInt + orderGap.toInt := by
  have hmax : Int64.maxValue.toInt = 2 ^ 63 - 1 := by decide
  have hlow := order.le_toInt
  rw [orderGap_toInt] at hroom ⊢
  rw [Int64.toInt_add, orderGap_toInt]
  exact Int.bmod_eq_of_le (by omega) (by omega)

/-- The sum of the greatest order and a gap is exact exactly when every order has room. -/
theorem greatestOrder_add_iff (siblings : List Todo) :
    (greatestOrder siblings + orderGap).toInt = (greatestOrder siblings).toInt + orderGap.toInt ↔
      HaveRoom siblings := by
  constructor
  · intro hsum sibling hsibling order horder
    have hle := Int64.le_iff_toInt_le.mp (le_greatestOrder hsibling horder)
    have hsmall := (greatestOrder siblings + orderGap).toInt_le
    have hmax : Int64.maxValue.toInt = 2 ^ 63 - 1 := by decide
    omega
  · intro hroom
    refine toInt_add_gap ?_
    rcases greatestOrder_cases siblings with hzero | ⟨sibling, hsibling, horder⟩
    · rw [hzero]
      decide
    · exact hroom sibling hsibling _ horder

end Sums

section Doubles

/-- The double nearest to a machine integer past the least is at most 512 below it. -/
theorem sub_le_nearestDouble {n : ℤ} (hlow : -2 ^ 63 < n) (hhigh : n < 2 ^ 63) :
    ((n - 512 : ℤ) : ℚ) ≤ nearestDouble n := by
  have hsize : |(n : ℚ)| < 2 ^ (10 + 53) := by
    rw [← Int.cast_abs]
    exact_mod_cast abs_lt.mpr ⟨hlow, hhigh⟩
  have hstep := doubleStep_le hsize
  have hnear := neg_le_of_abs_le (nearestDouble_near n)
  push_cast
  linarith

/-- An order one gap past another is read back as a greater one. -/
theorem lt_readOrder {other order : Int64} (hlow : other.toInt + orderGap.toInt ≤ order.toInt) :
    ∃ back, readOrder (orderText order) = some back ∧ other < back := by
  rw [orderGap_toInt] at hlow
  refine ⟨_, readOrder_orderText order, ?_⟩
  have hotherLow := other.le_toInt
  have horder := order.toInt_lt
  have hmin : Int64.minValue.toInt = -2 ^ 63 := by decide
  have hmax : Int64.maxValue.toInt = 2 ^ 63 - 1 := by decide
  have hnear := le_roundHalfAway (sub_le_nearestDouble (n := order.toInt) (by omega) (by omega))
  generalize roundHalfAway (nearestDouble order.toInt) = rounded at hnear ⊢
  rw [Int64.lt_iff_toInt_lt]
  by_cases hfits : rounded ≤ Int64.maxValue.toInt
  · rw [Int64.toInt_ofIntClamp (by omega) hfits]
    omega
  · have hclamped : Int64.ofIntClamp rounded = Int64.maxValue := by
      unfold Int64.ofIntClamp
      rw [dif_pos (by omega), dif_neg hfits]
    rw [hclamped]
    omega

end Doubles

section Stores

/-- The todos on a project under a parent, other than one to skip. -/
def Doc.besides (doc : Doc) (project parent skip : Option String) : List Todo :=
  (rows doc.todos).filter fun todo => todo.project == project && todo.parent == parent && some todo.id != skip

/-- The todos on a project's node under a parent, other than one to skip. -/
def Replica.besides (lib : TaskLibraries) (r : Replica) (project parent skip : Option String) : List Todo :=
  (r.todos lib).filter fun todo => todo.node == project.getD globalNode && todo.parent == parent && some todo.id != skip

/-- A call that places a todo with no order of its own: its siblings, the order it is given, and the order it has when
it is read again. -/
inductive Placing (lib : TaskLibraries) : List Todo → Int64 → Option Int64 → Prop
  | docAdd {doc doc' : Doc} {now : Instant} {todo : NewTodo} {id : String} {new : Todo} : todo.order = none →
    todo.ticket.bind doc.ticketTodo = none → doc.add now todo = .ok (doc', id) → doc'.get id = some new →
    Placing lib (doc.besides todo.project todo.parent none) (doc.afterLast todo.project todo.parent none) new.order
  | docMove {doc doc' : Doc} {now : Instant} {id : String} {parent : Option String} {todo moved : Todo}
    {changes : List StatusChange} : doc.get id = some todo →
    doc.apply now (.move id parent none) = .ok (doc', changes) → doc'.get id = some moved →
    Placing lib (doc.besides todo.project parent (some id)) (doc.afterLast todo.project parent (some id)) moved.order
  | replicaAdd {r r' : Replica} {now : Instant} {fresh uuid : Uuid} {todo : NewTodo} {parent : Option String}
    {id : String} {task : Properties} : todo.order = none → r.resolveParent lib todo.parent = .ok parent →
    uuid = (todo.ticket.map fun ticket => ticketTodoUuid lib "" ticket.tracker ticket.key).getD fresh →
    (todo.ticket.isSome → r.tasks.contains uuid = false) → r.add lib now fresh todo = .ok (r', id) →
    r'.tasks[uuid]? = some task →
    Placing lib (r.besides lib todo.project parent none) (r.afterLast lib todo.project parent none)
      (task["order"]?.bind readOrder)
  | replicaMove {r r' : Replica} {now : Instant} {id : String} {parent under : Option String} {todo : Todo}
    {changes : List StatusChange} {uuid : Uuid} {task : Properties} : r.resolve lib id = .ok todo →
    r.resolveParent lib parent = .ok under → r.apply lib now (.move id parent none) = .ok (r', changes) →
    lib.tryParse todo.id = some uuid → r'.tasks[uuid]? = some task →
    Placing lib (r.besides lib todo.project under (some todo.id)) (r.afterLast lib todo.project under (some todo.id))
      (task["order"]?.bind readOrder)

/-- The order of a new task. -/
theorem order_newTask (now : Instant) (todo : NewTodo) (parent : Option String) (order : Int64) :
    (Replica.newTask now todo parent order)["order"]? = some (orderText order) := by
  unfold Replica.newTask
  cases todo.ticket <;> simp [getElem?_set]

/-- A todo added to a document after its siblings has the order it was given. -/
theorem order_docAdd {doc doc' : Doc} {now : Instant} {todo : NewTodo} {id : String} {new : Todo}
    (horder : todo.order = none) (hfresh : todo.ticket.bind doc.ticketTodo = none)
    (hadd : doc.add now todo = .ok (doc', id)) (hget : doc'.get id = some new) :
    new.order = some (doc.afterLast todo.project todo.parent none) := by
  have hmade : ∀ {order : Option Int64} {key : ℕ}, ∀ new' : Todo, new'.order = order →
      Doc.get ⟨key + 1, doc.todos.insert key new'⟩ (idOf key) = some new → new.order = order := by
    intro order key new' hnew hfound
    rw [Doc.get, parseKey_idOf, Option.bind_some] at hfound
    rw [getElem?_insert_eq, if_pos rfl] at hfound
    obtain rfl := Option.some.inj hfound
    exact hnew
  unfold Doc.add at hadd
  rw [hfresh, horder] at hadd
  cases hparent : todo.parent with
  | none =>
    simp only [hparent] at hadd
    obtain ⟨rfl, rfl⟩ := Prod.mk.inj (Except.ok.inj hadd)
    exact hmade _ rfl hget
  | some parent =>
    simp only [hparent] at hadd
    obtain ⟨_, _, hadd⟩ := bind_eq_ok.mp hadd
    obtain ⟨rfl, rfl⟩ := Prod.mk.inj (Except.ok.inj hadd)
    exact hmade _ rfl hget

/-- A todo moved in a document after its new siblings has the order it was given. -/
theorem order_docMove {doc doc' : Doc} {now : Instant} {id : String} {parent : Option String} {todo moved : Todo}
    {changes : List StatusChange} (hget : doc.get id = some todo)
    (hmove : doc.apply now (.move id parent none) = .ok (doc', changes)) (hmoved : doc'.get id = some moved) :
    moved.order = some (doc.afterLast todo.project parent (some id)) := by
  obtain ⟨key, hkey, htodo⟩ := Option.bind_eq_some_iff.mp hget
  have hmut : doc.todoMut id = .ok (key, todo) := Doc.todoMut_eq_ok.mpr ⟨hkey, htodo⟩
  have hput : doc' = doc.put key { todo with
      parent, order := some (doc.afterLast todo.project parent (some id)), modified := some now.text } := by
    cases parent with
    | none =>
      simp only [Doc.apply, hmut] at hmove
      obtain ⟨rfl, -⟩ := Prod.mk.inj (Except.ok.inj hmove)
      rfl
    | some under =>
      simp only [Doc.apply, hmut] at hmove
      obtain ⟨_, _, hmove⟩ := bind_eq_ok.mp hmove
      obtain ⟨rfl, -⟩ := Prod.mk.inj (Except.ok.inj hmove)
      rfl
  subst hput
  rw [Doc.get, hkey, Option.bind_some] at hmoved
  simp only [Doc.put] at hmoved
  rw [getElem?_insert_eq, if_pos rfl] at hmoved
  obtain rfl := Option.some.inj hmoved
  rfl

/-- A task added to the replica after its siblings has the text of the order it was given. -/
theorem order_replicaAdd {lib : TaskLibraries} {r r' : Replica} {now : Instant} {fresh uuid : Uuid} {todo : NewTodo}
    {parent : Option String} {id : String} {task : Properties} (horder : todo.order = none)
    (hparent : r.resolveParent lib todo.parent = .ok parent)
    (huuid : uuid = (todo.ticket.map fun ticket => ticketTodoUuid lib "" ticket.tracker ticket.key).getD fresh)
    (hnew : todo.ticket.isSome → r.tasks.contains uuid = false) (hadd : r.add lib now fresh todo = .ok (r', id))
    (htask : r'.tasks[uuid]? = some task) :
    task["order"]? = some (orderText (r.afterLast lib todo.project parent none)) := by
  unfold Replica.add at hadd
  rw [hparent, horder] at hadd
  have hmade : ∀ {uuid : Uuid}, r' = ⟨r.tasks.insert uuid (Replica.newTask now todo parent
      (r.afterLast lib todo.project parent none))⟩ → r'.tasks[uuid]? = some task →
      task["order"]? = some (orderText (r.afterLast lib todo.project parent none)) := by
    intro uuid hr hfound
    rw [hr] at hfound
    rw [getElem?_insert_eq, if_pos rfl] at hfound
    obtain rfl := Option.some.inj hfound
    exact order_newTask now todo parent _
  cases hticket : todo.ticket with
  | none =>
    rw [hticket] at huuid hadd
    obtain rfl := huuid
    obtain ⟨rfl, -⟩ := Prod.mk.inj (Except.ok.inj hadd)
    exact hmade rfl htask
  | some ticket =>
    rw [hticket] at huuid hadd hnew
    obtain rfl := huuid
    have habsent := hnew rfl
    simp only [Option.map_some, Option.getD_some] at habsent hadd
    simp only [bind, Except.bind, habsent] at hadd
    obtain ⟨rfl, -⟩ := Prod.mk.inj (Except.ok.inj hadd)
    exact hmade rfl htask

/-- A task moved in the replica after its new siblings has the text of the order it was given. -/
theorem order_replicaMove {lib : TaskLibraries} {r r' : Replica} {now : Instant} {id : String}
    {parent under : Option String} {todo : Todo} {changes : List StatusChange} {uuid : Uuid} {task : Properties}
    (hresolve : r.resolve lib id = .ok todo) (hparent : r.resolveParent lib parent = .ok under)
    (hmove : r.apply lib now (.move id parent none) = .ok (r', changes)) (huuid : lib.tryParse todo.id = some uuid)
    (htask : r'.tasks[uuid]? = some task) :
    task["order"]? = some (orderText (r.afterLast lib todo.project under (some todo.id))) := by
  simp only [Replica.apply, hresolve, hparent, bind, Except.bind, Option.getD_none] at hmove
  split at hmove
  · contradiction
  · rename_i next hchange
    obtain ⟨rfl, -⟩ := Prod.mk.inj (Except.ok.inj hmove)
    obtain ⟨⟨found, old⟩, hfound, heq⟩ := bind_eq_ok.mp hchange
    obtain rfl := Except.ok.inj heq
    simp only [Replica.taskOf, huuid] at hfound
    split at hfound
    · obtain ⟨rfl, -⟩ := Prod.mk.inj (Except.ok.inj hfound)
      rw [getElem?_insert_eq, if_pos rfl] at htask
      obtain rfl := Option.some.inj htask
      simp [getElem?_set]
    · contradiction

/-- A placed todo is given the greatest order of its siblings and a gap, and keeps it or reads it through a double. -/
theorem Placing.given {lib : TaskLibraries} {siblings : List Todo} {wrote : Int64} {placed : Option Int64}
    (hplacing : Placing lib siblings wrote placed) :
    wrote = greatestOrder siblings + orderGap ∧ (placed = some wrote ∨ placed = readOrder (orderText wrote)) := by
  cases hplacing with
  | docAdd horder hfresh hadd hget => exact ⟨rfl, Or.inl (order_docAdd horder hfresh hadd hget)⟩
  | docMove hget hmove hmoved => exact ⟨rfl, Or.inl (order_docMove hget hmove hmoved)⟩
  | replicaAdd horder hparent huuid hnew hadd htask =>
    refine ⟨rfl, Or.inr ?_⟩
    rw [order_replicaAdd horder hparent huuid hnew hadd htask, Option.bind_some]
  | replicaMove hresolve hparent hmove huuid htask =>
    refine ⟨rfl, Or.inr ?_⟩
    rw [order_replicaMove hresolve hparent hmove huuid htask, Option.bind_some]

end Stores

/-- A todo placed with no order goes after every sibling, with no overflow, exactly when each sibling's order leaves
room for one more gap. -/
theorem placing_last_iff {lib : TaskLibraries} {siblings : List Todo} {wrote : Int64} {placed : Option Int64}
    (hplacing : Placing lib siblings wrote placed) :
    (wrote.toInt = (greatestOrder siblings).toInt + orderGap.toInt ∧ After siblings placed) ↔ HaveRoom siblings := by
  obtain ⟨rfl, hplaced⟩ := hplacing.given
  constructor
  · rintro ⟨hsum, -⟩
    exact (greatestOrder_add_iff siblings).mp hsum
  · intro hroom
    have hsum := (greatestOrder_add_iff siblings).mpr hroom
    refine ⟨hsum, ?_⟩
    have hbelow : ∀ sibling ∈ siblings, ∀ other, sibling.order = some other →
        other.toInt + orderGap.toInt ≤ (greatestOrder siblings + orderGap).toInt := by
      intro sibling hsibling other hother
      rw [hsum]
      have hle := Int64.le_iff_toInt_le.mp (le_greatestOrder hsibling hother)
      omega
    rcases hplaced with rfl | hplaced
    · refine ⟨_, rfl, fun sibling hsibling other hother => Int64.lt_iff_toInt_lt.mpr ?_⟩
      have hgap := hbelow sibling hsibling other hother
      rw [orderGap_toInt] at hgap
      omega
    · have hread : ∃ back, readOrder (orderText (greatestOrder siblings + orderGap)) = some back :=
        ⟨_, readOrder_orderText _⟩
      obtain ⟨back, hback⟩ := hread
      refine ⟨back, hplaced.trans hback, fun sibling hsibling other hother => ?_⟩
      obtain ⟨back', hback', hlt⟩ := lt_readOrder (hbelow sibling hsibling other hother)
      obtain rfl := Option.some.inj (hback.symm.trans hback')
      exact hlt

section Samples

/-- A document with one todo of an order on the global list. -/
def withOrder (order : Int64) : Doc :=
  ⟨2, (∅ : ExtTreeMap ℕ Todo).insert 1
    { id := "1", description := "one", status := .pending, parent := none, order := some order, project := none,
      entry := none, modified := none, blockedBy := [], ticket := none }⟩

/-- A todo with no order of its own. -/
def unordered : NewTodo := { description := "two", parent := none, order := none, project := none, ticket := none }

/-- The todo an add with no order makes next to one of an order. -/
def secondOf (order : Int64) : Todo :=
  { id := idOf 2, description := oneLine "two", status := .pending, parent := none,
    order := some ((withOrder order).afterLast none none none), project := none, entry := some epoch.text,
    modified := some epoch.text, blockedBy := [], ticket := none }

/-- An add with no order next to a todo of an order. -/
theorem placing_withOrder (order : Int64) :
    Placing sampleLibraries ((withOrder order).besides none none none) ((withOrder order).afterLast none none none)
      (secondOf order).order := by
  have hadd : (withOrder order).add epoch unordered =
      .ok (⟨3, (withOrder order).todos.insert 2 (secondOf order)⟩, idOf 2) := rfl
  refine @Placing.docAdd _ (withOrder order) _ epoch unordered _ (secondOf order) rfl rfl hadd ?_
  rw [Doc.get, parseKey_idOf, Option.bind_some]
  dsimp only
  rw [getElem?_insert_eq, if_pos rfl]

/-- An add after one gap. -/
theorem placing_last_sample :
    HaveRoom ((withOrder 1024).besides none none none) ∧
      After ((withOrder 1024).besides none none none) (secondOf 1024).order := by
  have hsum : ((withOrder 1024).afterLast none none none).toInt =
      (greatestOrder ((withOrder 1024).besides none none none)).toInt + orderGap.toInt := by decide +kernel
  have hroom : HaveRoom ((withOrder 1024).besides none none none) :=
    (greatestOrder_add_iff _).mp hsum
  exact ⟨hroom, ((placing_last_iff (placing_withOrder 1024)).mpr hroom).2⟩

/-- An add after the greatest integer goes first. -/
theorem placing_wraps :
    ∃ siblings wrote placed, Placing sampleLibraries siblings wrote placed ∧ ¬ After siblings placed := by
  refine ⟨_, _, _, placing_withOrder Int64.maxValue, ?_⟩
  rintro ⟨order, hplaced, hafter⟩
  have hwrapped : (secondOf Int64.maxValue).order = some (Int64.minValue + 1023) := by decide +kernel
  obtain rfl := Option.some.inj (hwrapped.symm.trans hplaced)
  have hmem : (withOrder Int64.maxValue).todos[1]? ∈
    (((withOrder Int64.maxValue).besides none none none).map some) := by
    decide +kernel
  obtain ⟨sibling, hsibling, heq⟩ := List.mem_map.mp hmem
  have hother : sibling.order = some Int64.maxValue := by
    have hfirst : (withOrder Int64.maxValue).todos[1]?.bind Todo.order = some Int64.maxValue := by decide +kernel
    rw [← heq] at hfirst
    exact hfirst
  exact absurd (hafter sibling hsibling Int64.maxValue hother) (by decide)

end Samples

end Devkit.Todos
