import CachePurge.Worker
import Mathlib.Data.List.Perm.Basic

/-! What the sections under the zone lock do to the queue. Every operation is
one change of a short list (a loop is a list of them), and every change keeps the
representation: the counters, the two lists, the tasks and the indexes agree. -/
namespace CachePurge

section fields
variable (slot : Option Slot) (a : Nat) (field : Metric) (value : UInt64) (t : TaskId) (q : Queue)

@[simp] theorem statAddFields : (q.statAdd slot a field value).pending = q.pending ∧
    (q.statAdd slot a field value).active = q.active ∧ (q.statAdd slot a field value).size = q.size ∧
    (q.statAdd slot a field value).running = q.running ∧
    (q.statAdd slot a field value).oldest = q.oldest ∧
    (q.statAdd slot a field value).owners = q.owners ∧
    (q.statAdd slot a field value).epochs = q.epochs ∧
    (q.statAdd slot a field value).probes = q.probes ∧
    (q.statAdd slot a field value).maxSize = q.maxSize ∧
    (q.statAdd slot a field value).paths = q.paths ∧
    (q.statAdd slot a field value).items = q.items := by
  cases slot <;> simp [Queue.statAdd,Queue.modifyPath]

@[simp] theorem statAddPath (b : Nat) :
    ((q.statAdd slot a field value).path b).index = (q.path b).index ∧
    ((q.statAdd slot a field value).path b).name = (q.path b).name := by
  cases slot with
  | none => exact ⟨rfl,rfl⟩
  | some slot =>
    simp only [Queue.statAdd,Queue.modifyPath]
    rcases eq_or_ne b a with rfl | other
    · simp
    · simp [other]

@[simp] theorem pushPendingFields : (q.pushPending t).pending = q.pending ++ [t] ∧
    (q.pushPending t).active = q.active ∧ (q.pushPending t).size = q.size ∧
    (q.pushPending t).running = q.running ∧ (q.pushPending t).owners = q.owners ∧
    (q.pushPending t).epochs = q.epochs ∧ (q.pushPending t).probes = q.probes ∧
    (q.pushPending t).maxSize = q.maxSize ∧ (q.pushPending t).paths = q.paths ∧
    (q.pushPending t).path = q.path ∧ (q.pushPending t).items = q.items := by
  simp [Queue.pushPending]

theorem modifyItems (f : Item → Item) {item : Item} (here : q.items t = some item) :
    (q.modify t f).items = Function.update q.items t (some (f item)) := by
  simp [Queue.modify,here]

end fields

structure Queue.Catalog (q : Queue) : Prop where
  indexed : ∀ a t, t ∈ (q.path a).index ↔ ∃ item, q.items t = some item ∧ item.path = a
  distinct : ∀ a, (q.path a).index.Nodup
  placed : ∀ t item, q.items t = some item → item.path ∈ q.paths
  keys : ∀ t u item other, q.items t = some item → q.items u = some other →
    item.path = other.path → item.key = other.key → t = u

structure Queue.Valid (q : Queue) : Prop extends q.Catalog where
  size : q.size = q.pending.length
  running : q.running = q.active.length
  fits : q.size + q.running ≤ q.maxSize
  nodup : (q.pending ++ q.active).Nodup
  cells : ∀ t, (q.items t).isSome ↔ t ∈ q.pending ∨ t ∈ q.active
  flags : ∀ t item, q.items t = some item → (item.running = true ↔ t ∈ q.active)

/- Who is registered, and for how many probes, is apart from the tasks. -/
theorem registryValid {q : Queue} (valid : q.Valid) (owners : Slot → Pid) (probes : Slot → Nat) :
    ({q with owners := owners, probes := probes} : Queue).Valid :=
  ⟨⟨valid.indexed,valid.distinct,valid.placed,valid.keys⟩,valid.size,valid.running,valid.fits,valid.nodup,
    valid.cells,valid.flags⟩

structure Item.Carries (item item' : Item) : Prop where
  key : item'.key = item.key
  path : item'.path = item.path
  purgeAll : item'.purgeAll = item.purgeAll
  poolName : item'.poolName = item.poolName

theorem renewCarries (p : Purge) (item : Item) : item.Carries (p.renew item) := by
  unfold Purge.renew
  cases item.running <;> exact ⟨rfl,rfl,rfl,rfl⟩

theorem renewRunning (p : Purge) (item : Item) : (p.renew item).running = item.running := by
  unfold Purge.renew
  cases item.running <;> simp

theorem renewHolder (p : Purge) (item : Item) : (p.renew item).holder = item.holder := by
  unfold Purge.renew
  cases item.running <;> rfl

theorem requeueCarries (now : UInt64) (item : Item) : item.Carries (item.requeue now) := by
  unfold Item.requeue
  cases item.nextProtection <;> exact ⟨rfl,rfl,rfl,rfl⟩

theorem requeueRunning (now : UInt64) (item : Item) : (item.requeue now).running = false := by
  unfold Item.requeue
  cases item.nextProtection <;> simp

theorem startCarries (owner : Owner) (item : Item) : item.Carries (item.start owner) :=
  ⟨rfl,rfl,rfl,rfl⟩

structure Queue.Frame (q q' : Queue) : Prop where
  maxSize : q'.maxSize = q.maxSize
  paths : q'.paths = q.paths
  names : ∀ a, (q'.path a).name = (q.path a).name
  owners : q'.owners = q.owners
  epochs : q'.epochs = q.epochs
  probes : q'.probes = q.probes

inductive Act where
  | shuffle
  | accept (t : TaskId) (item : Item)
  | renew (t : TaskId) (p : Purge)
  | start (t : TaskId) (owner : Owner)
  | requeue (t : TaskId) (item : Item)
  | retire (t : TaskId)

inductive Change (q : Queue) : Act → Queue → Prop where
  | shuffle {q'} (frame : q.Frame q') (pending : q'.pending.Perm q.pending)
      (active : q'.active.Perm q.active) (size : q'.size = q.size) (running : q'.running = q.running)
      (items : q'.items = q.items) (index : ∀ a, (q'.path a).index = (q.path a).index) :
      Change q .shuffle q'
  | accept {q' t item} (frame : q.Frame q') (fresh : q.items t = none)
      (room : q.size + q.running < q.maxSize) (idle : item.running = false)
      (placed : item.path ∈ q.paths) (unique : ∀ u other, q.items u = some other →
        other.path = item.path → other.key ≠ item.key)
      (pending : q'.pending = q.pending ++ [t]) (active : q'.active = q.active)
      (size : q'.size = q.size + 1) (running : q'.running = q.running)
      (items : q'.items = Function.update q.items t (some item))
      (index : ∀ a, (q'.path a).index =
        if a = item.path then (q.path a).index ++ [t] else (q.path a).index) :
      Change q (.accept t item) q'
  | renew {q' t p item} (frame : q.Frame q') (here : q.items t = some item)
      (pending : q'.pending = q.pending) (active : q'.active = q.active) (size : q'.size = q.size)
      (running : q'.running = q.running)
      (items : q'.items = Function.update q.items t (some (p.renew item)))
      (index : ∀ a, (q'.path a).index = (q.path a).index) : Change q (.renew t p) q'
  | start {q' t owner item} (frame : q.Frame q') (here : q.items t = some item)
      (pending : q.pending.Perm (t :: q'.pending)) (active : q'.active = q.active ++ [t])
      (size : q'.size = q.size - 1) (running : q'.running = q.running + 1)
      (items : q'.items = Function.update q.items t (some (item.start owner)))
      (index : ∀ a, (q'.path a).index = (q.path a).index) : Change q (.start t owner) q'
  | requeue {q' t item item'} (frame : q.Frame q') (here : q.items t = some item)
      (carries : item.Carries item') (idle : item'.running = false)
      (pending : q'.pending = q.pending ++ [t]) (active : q.active.Perm (t :: q'.active))
      (size : q'.size = q.size + 1) (running : q'.running = q.running - 1)
      (items : q'.items = Function.update q.items t (some item'))
      (index : ∀ a, (q'.path a).index = (q.path a).index) : Change q (.requeue t item') q'
  | retire {q' t item} (frame : q.Frame q') (here : q.items t = some item)
      (pending : q'.pending = q.pending) (active : q.active.Perm (t :: q'.active))
      (size : q'.size = q.size) (running : q'.running = q.running - 1)
      (items : q'.items = Function.update q.items t none)
      (index : ∀ a, (q'.path a).index =
        if a = item.path then (q.path a).index.erase t else (q.path a).index) : Change q (.retire t) q'

theorem updatedItem {items items' : TaskId → Option Item} {t : TaskId} {cell : Option Item}
    (updated : items' = Function.update items t cell) {u : TaskId} {item : Item} (here : items' u = some item) :
    (u = t ∧ cell = some item) ∨ (u ≠ t ∧ items u = some item) := by
  rw [updated] at here
  rcases eq_or_ne u t with rfl | other
  · exact .inl ⟨rfl,by simpa using here⟩
  · exact .inr ⟨other,by simpa [other] using here⟩

section catalog
variable {q q' : Queue} (catalog : q.Catalog) (frame : q.Frame q') {t : TaskId} {item : Item}
include catalog frame

theorem catalogCarries {item' : Item} (here : q.items t = some item) (carries : item.Carries item')
    (items : q'.items = Function.update q.items t (some item'))
    (index : ∀ a, (q'.path a).index = (q.path a).index) : q'.Catalog := by
  have source (u : TaskId) (new : Item) (found : q'.items u = some new) :
      ∃ old, q.items u = some old ∧ old.path = new.path ∧ old.key = new.key := by
    rcases updatedItem items found with ⟨rfl,same⟩ | ⟨_,before⟩
    · cases Option.some.inj same
      exact ⟨item,here,carries.path.symm,carries.key.symm⟩
    · exact ⟨new,before,rfl,rfl⟩
  refine ⟨fun a u => ?_,fun a => by rw [index]; exact catalog.distinct a,fun u new found => ?_,?_⟩
  · rw [index,catalog.indexed,items]
    rcases eq_or_ne u t with rfl | other
    · simp [here,carries.path]
    · simp [other]
  · obtain ⟨old,before,path,_⟩ := source u new found
    rw [frame.paths,← path]
    exact catalog.placed u old before
  · intro u v new other found found' path key
    obtain ⟨old,before,path₁,key₁⟩ := source u new found
    obtain ⟨old',before',path₂,key₂⟩ := source v other found'
    exact catalog.keys u v old old' before before' (by rw [path₁,path,path₂]) (by rw [key₁,key,key₂])

theorem catalogAdmitted (fresh : q.items t = none) (placed : item.path ∈ q.paths)
    (unique : ∀ u other, q.items u = some other → other.path = item.path → other.key ≠ item.key)
    (items : q'.items = Function.update q.items t (some item))
    (index : ∀ a, (q'.path a).index =
      if a = item.path then (q.path a).index ++ [t] else (q.path a).index) : q'.Catalog := by
  have absent (a : Nat) : t ∉ (q.path a).index := by
    rw [catalog.indexed,fresh]
    simp
  refine ⟨fun a u => ?_,fun a => ?_,fun u new found => ?_,?_⟩
  · rw [index,items]
    rcases eq_or_ne u t with rfl | other
    · have apart := absent a
      rw [Function.update_self]
      split
      · rename_i same
        simp [same]
      · rename_i different
        simp [apart,Ne.symm different]
    · rw [Function.update_of_ne other,← catalog.indexed]
      split <;> simp [other]
  · rw [index]
    have nodup := catalog.distinct a
    split
    · exact List.nodup_append.mpr ⟨nodup,by simp,fun u member v last => by
        rw [List.mem_singleton.mp last]
        exact fun same => absent a (same ▸ member)⟩
    · exact nodup
  · rw [frame.paths]
    rcases updatedItem items found with ⟨_,same⟩ | ⟨_,before⟩
    · cases Option.some.inj same
      exact placed
    · exact catalog.placed u new before
  · intro u v new other found found' path key
    rcases updatedItem items found with ⟨rfl,mine⟩ | ⟨_,before⟩
    · rcases updatedItem items found' with ⟨rfl,_⟩ | ⟨_,before'⟩
      · rfl
      · cases Option.some.inj mine
        exact absurd key.symm (unique v other before' path.symm)
    · rcases updatedItem items found' with ⟨_,mine⟩ | ⟨_,before'⟩
      · cases Option.some.inj mine
        exact absurd key (unique u new before path)
      · exact catalog.keys u v new other before before' path key

theorem catalogRetired (here : q.items t = some item)
    (items : q'.items = Function.update q.items t none)
    (index : ∀ a, (q'.path a).index =
      if a = item.path then (q.path a).index.erase t else (q.path a).index) : q'.Catalog := by
  have source (u : TaskId) (new : Item) (found : q'.items u = some new) : q.items u = some new := by
    rcases updatedItem items found with ⟨_,same⟩ | ⟨_,before⟩
    · contradiction
    · exact before
  refine ⟨fun a u => ?_,fun a => ?_,fun u new found => ?_,?_⟩
  · rw [index,items]
    rcases eq_or_ne u t with rfl | other
    · rw [Function.update_self]
      split
      · simp [(catalog.distinct a).mem_erase_iff]
      · rename_i different
        rw [catalog.indexed,here]
        simp [Ne.symm different]
    · rw [Function.update_of_ne other,← catalog.indexed]
      split
      · exact List.mem_erase_of_ne other
      · rfl
  · rw [index]
    split
    · exact (catalog.distinct a).erase t
    · exact catalog.distinct a
  · rw [frame.paths]
    exact catalog.placed u new (source u new found)
  · intro u v new other found found'
    exact catalog.keys u v new other (source u new found) (source v other found')

theorem catalogSame (items : q'.items = q.items)
    (index : ∀ a, (q'.path a).index = (q.path a).index) : q'.Catalog :=
  ⟨fun a u => by rw [index,items]; exact catalog.indexed a u,
    fun a => by rw [index]; exact catalog.distinct a,
    fun u new found => by rw [frame.paths]; exact catalog.placed u new (items ▸ found),
    fun u v new other found found' => catalog.keys u v new other (items ▸ found) (items ▸ found')⟩

end catalog

theorem cellsReplaced {q q' : Queue} {t : TaskId} {item item' : Item} (here : q.items t = some item)
    (items : q'.items = Function.update q.items t (some item')) (u : TaskId) :
    (q'.items u).isSome ↔ (q.items u).isSome := by
  rw [items]
  rcases eq_or_ne u t with rfl | other
  · simp [here]
  · simp [other]

section lists
variable {q q' : Queue} (valid : q.Valid) {t : TaskId} {item item' : Item}
include valid

theorem activeNotPending (held : t ∈ q.active) : t ∉ q.pending := by
  intro waiting
  exact (List.nodup_append.mp valid.nodup).2.2 t waiting t held rfl

theorem activeGone (active : q.active.Perm (t :: q'.active)) : t ∉ q'.active :=
  (List.nodup_cons.mp (active.nodup_iff.mp (List.nodup_append.mp valid.nodup).2.1)).1

theorem cellListed (here : q.items t = some item) : t ∈ q.pending ∨ t ∈ q.active :=
  (valid.cells t).mp (by rw [here]; rfl)

theorem listedCell (listed : t ∈ q.pending ∨ t ∈ q.active) : ∃ item, q.items t = some item :=
  Option.isSome_iff_exists.mp ((valid.cells t).mpr listed)

theorem validKept (catalog : q'.Catalog) (frame : q.Frame q')
    (listed : (q'.pending ++ q'.active).Perm (q.pending ++ q.active))
    (size : q'.size = q'.pending.length) (running : q'.running = q'.active.length)
    (cells : ∀ u, (q'.items u).isSome ↔ (q.items u).isSome)
    (flags : ∀ u new, q'.items u = some new → (new.running = true ↔ u ∈ q'.active)) : q'.Valid := by
  refine ⟨catalog,size,running,?_,listed.nodup_iff.mpr valid.nodup,fun u => ?_,flags⟩
  · have count := listed.length_eq
    simp only [List.length_append] at count
    rw [size,running,count,frame.maxSize,← valid.size,← valid.running]
    exact valid.fits
  · rw [cells u,valid.cells u,← List.mem_append,← List.mem_append]
    exact listed.mem_iff.symm

theorem flagsReplaced (items : q'.items = Function.update q.items t (some item'))
    (mine : item'.running = true ↔ t ∈ q'.active)
    (others : ∀ u, u ≠ t → (u ∈ q'.active ↔ u ∈ q.active)) :
    ∀ u new, q'.items u = some new → (new.running = true ↔ u ∈ q'.active) := by
  intro u new found
  rcases updatedItem items found with ⟨rfl,same⟩ | ⟨other,before⟩
  · cases Option.some.inj same
    exact mine
  · rw [others u other]
    exact valid.flags u new before

end lists

theorem changeFrame {q q' : Queue} {act : Act} (change : Change q act q') : q.Frame q' := by
  cases change <;> assumption

theorem changeValid {q q' : Queue} {act : Act} (valid : q.Valid) (change : Change q act q') : q'.Valid := by
  cases change with
  | shuffle frame pending active size running items index =>
    refine validKept valid (catalogSame valid.toCatalog frame items index) frame (pending.append active)
      (by rw [size,pending.length_eq,valid.size]) (by rw [running,active.length_eq,valid.running])
      (fun u => by rw [items]) fun u new found => ?_
    rw [active.mem_iff]
    exact valid.flags u new (items ▸ found)
  | @accept _ t item frame fresh room idle placed unique pending active size running items index =>
    have catalog := catalogAdmitted valid.toCatalog frame fresh placed unique items index
    have absent : ¬ (t ∈ q.pending ∨ t ∈ q.active) := by
      rw [← valid.cells t,fresh]
      simp
    simp only [not_or] at absent
    have perm : (q'.pending ++ q'.active).Perm (t :: (q.pending ++ q.active)) := by
      rw [pending,active,List.append_assoc]
      exact List.perm_middle
    refine ⟨catalog,by simp [size,pending,valid.size],by rw [running,active,valid.running],
      by rw [size,running,frame.maxSize]; omega,?_,fun u => ?_,
      flagsReplaced valid items (by rw [active]; simp [idle,absent.2]) fun u _ => by rw [active]⟩
    · exact perm.nodup_iff.mpr (List.nodup_cons.mpr ⟨by simp [absent],valid.nodup⟩)
    · rw [items,pending,active]
      rcases eq_or_ne u t with rfl | other
      · simp
      · simp [other,valid.cells u]
  | @renew _ t p item frame here pending active size running items index =>
    have catalog := catalogCarries valid.toCatalog frame here (renewCarries p item) items index
    refine validKept valid catalog frame (by rw [pending,active]) (by rw [size,pending,valid.size])
      (by rw [running,active,valid.running]) (cellsReplaced here items)
      (flagsReplaced valid items ?_ fun u _ => by rw [active])
    rw [renewRunning,active]
    exact valid.flags t item here
  | @start _ t owner item frame here pending active size running items index =>
    have catalog := catalogCarries valid.toCatalog frame here (startCarries owner item) items index
    have count := pending.length_eq
    have listed : (q'.pending ++ q'.active).Perm (q.pending ++ q.active) := by
      rw [active,← List.append_assoc]
      exact List.perm_append_comm.trans (pending.symm.append_right q.active)
    refine validKept valid catalog frame listed
      (by rw [size,valid.size,count]; simp) (by simp [running,active,valid.running])
      (cellsReplaced here items) (flagsReplaced valid items ?_ fun u other => ?_)
    · rw [active]
      simp [Item.start]
    · rw [active]
      simp [other]
  | @requeue _ t item item' frame here carries idle pending active size running items index =>
    have catalog := catalogCarries valid.toCatalog frame here carries items index
    have count := active.length_eq
    have listed : (q'.pending ++ q'.active).Perm (q.pending ++ q.active) := by
      rw [pending,List.append_assoc]
      exact List.Perm.append_left _ active.symm
    refine validKept valid catalog frame listed
      (by simp [size,pending,valid.size]) (by rw [running,valid.running,count]; simp)
      (cellsReplaced here items) (flagsReplaced valid items ?_ fun u other => ?_)
    · simp [idle,activeGone valid active]
    · rw [active.mem_iff]
      simp [other]
  | @retire _ t item frame here pending active size running items index =>
    have catalog := catalogRetired valid.toCatalog frame here items index
    have count := active.length_eq
    have gone := activeGone valid active
    have held : t ∈ q.active := active.mem_iff.mpr List.mem_cons_self
    have perm : (q.pending ++ q.active).Perm (t :: (q'.pending ++ q'.active)) := by
      rw [pending]
      exact (List.Perm.append_left _ active).trans List.perm_middle
    have fits := valid.fits
    refine ⟨catalog,by rw [size,pending,valid.size],by rw [running,valid.running,count]; simp,
      by rw [size,running,frame.maxSize]; omega,
      (List.nodup_cons.mp (perm.nodup_iff.mp valid.nodup)).2,fun u => ?_,fun u new found => ?_⟩
    · rw [items]
      rcases eq_or_ne u t with rfl | other
      · simp [pending,gone,activeNotPending valid held]
      · rw [Function.update_of_ne other,valid.cells u,pending,active.mem_iff]
        simp [other]
    · rcases updatedItem items found with ⟨_,same⟩ | ⟨other,before⟩
      · contradiction
      · rw [valid.flags u new before,active.mem_iff]
        simp [other]

def Act.task : Act → Option TaskId
  | .shuffle => none
  | .accept t _ | .renew t _ | .start t _ | .requeue t _ | .retire t => some t

/- What a change does to a task that is there: only the act on that task touches
its cell, and only a start, a requeue or the retirement moves it. -/
inductive Fate (q q' : Queue) (t : TaskId) (item : Item) : Act → Prop where
  | apart {act} (other : act.task ≠ some t) (here : q'.items t = some item)
      (pending : t ∈ q'.pending ↔ t ∈ q.pending) (active : t ∈ q'.active ↔ t ∈ q.active) :
      Fate q q' t item act
  | renewed {p} (here : q'.items t = some (p.renew item)) (pending : t ∈ q'.pending ↔ t ∈ q.pending)
      (active : t ∈ q'.active ↔ t ∈ q.active) : Fate q q' t item (.renew t p)
  | started {owner} (waiting : t ∈ q.pending) (here : q'.items t = some (item.start owner))
      (held : t ∈ q'.active) : Fate q q' t item (.start t owner)
  | requeued {item'} (held : t ∈ q.active) (carries : item.Carries item') (here : q'.items t = some item')
      (waiting : t ∈ q'.pending) (gone : t ∉ q'.active) : Fate q q' t item (.requeue t item')
  | retired (held : t ∈ q.active) (here : q'.items t = none) (gone : t ∉ q'.active) :
      Fate q q' t item (.retire t)

theorem changeFate {q q' : Queue} {act : Act} (valid : q.Valid) (change : Change q act q') {t : TaskId}
    {item : Item} (here : q.items t = some item) : Fate q q' t item act := by
  have kept {u : TaskId} {cell : Option Item} (other : t ≠ u)
      (items : q'.items = Function.update q.items u cell) : q'.items t = some item := by
    rw [items,Function.update_of_ne other]
    exact here
  have held {u : TaskId} (active : q.active.Perm (u :: q'.active)) : u ∈ q.active :=
    active.mem_iff.mpr List.mem_cons_self
  cases change with
  | shuffle _ pending active _ _ items _ =>
    exact .apart (by simp [Act.task]) (by rw [items]; exact here) pending.mem_iff active.mem_iff
  | @accept _ u _ _ fresh _ _ _ _ pending active _ _ items _ =>
    have other : t ≠ u := by rintro rfl; simp [fresh] at here
    exact .apart (by simp [Act.task,Ne.symm other]) (kept other items) (by simp [pending,other]) (by rw [active])
  | @renew _ u p old _ there pending active _ _ items _ =>
    rcases eq_or_ne t u with rfl | other
    · cases Option.some.inj (here.symm.trans there)
      exact .renewed (by rw [items,Function.update_self]) (by rw [pending]) (by rw [active])
    · exact .apart (by simp [Act.task,Ne.symm other]) (kept other items) (by rw [pending]) (by rw [active])
  | @start _ u owner old _ there pending active _ _ items _ =>
    rcases eq_or_ne t u with rfl | other
    · cases Option.some.inj (here.symm.trans there)
      exact .started (pending.mem_iff.mpr List.mem_cons_self) (by rw [items,Function.update_self])
        (by simp [active])
    · exact .apart (by simp [Act.task,Ne.symm other]) (kept other items) (by simp [pending.mem_iff,other])
        (by simp [active,other])
  | @requeue _ u old new _ there carries _ pending active _ _ items _ =>
    rcases eq_or_ne t u with rfl | other
    · cases Option.some.inj (here.symm.trans there)
      exact .requeued (held active) carries (by rw [items,Function.update_self]) (by simp [pending]) (activeGone valid active)
    · exact .apart (by simp [Act.task,Ne.symm other]) (kept other items) (by simp [pending,other])
        (by simp [active.mem_iff,other])
  | @retire _ u old _ there pending active _ _ items _ =>
    rcases eq_or_ne t u with rfl | other
    · exact .retired (held active) (by rw [items,Function.update_self]) (activeGone valid active)
    · exact .apart (by simp [Act.task,Ne.symm other]) (kept other items) (by rw [pending])
        (by simp [active.mem_iff,other])

/- Where a task of the changed queue comes from. -/
theorem changeSource {q q' : Queue} {act : Act} (valid : q.Valid) (change : Change q act q') {t : TaskId}
    {item' : Item} (here' : q'.items t = some item') :
    (act = .accept t item' ∧ q.items t = none ∧ item'.running = false) ∨
      ∃ item, q.items t = some item ∧ item.Carries item' := by
  cases here : q.items t with
  | some item =>
    refine .inr ⟨item,rfl,?_⟩
    cases changeFate valid change here with
    | apart _ kept =>
      cases Option.some.inj (kept.symm.trans here')
      exact ⟨rfl,rfl,rfl,rfl⟩
    | @renewed p kept =>
      cases Option.some.inj (kept.symm.trans here')
      exact renewCarries p item
    | @started owner _ kept =>
      cases Option.some.inj (kept.symm.trans here')
      exact startCarries owner item
    | requeued _ carries kept =>
      cases Option.some.inj (kept.symm.trans here')
      exact carries
    | retired _ none =>
      rw [none] at here'
      contradiction
  | none =>
    have elsewhere {u : TaskId} {old : Item} {cell : Option Item} (there : q.items u = some old)
        (items : q'.items = Function.update q.items u cell) : False := by
      have other : t ≠ u := by rintro rfl; simp [there] at here
      rw [items,Function.update_of_ne other,here] at here'
      contradiction
    cases change with
    | shuffle _ _ _ _ _ items _ =>
      rw [items,here] at here'
      contradiction
    | @accept _ u new _ fresh _ idle _ _ _ _ _ _ items _ =>
      rcases updatedItem items here' with ⟨rfl,same⟩ | ⟨_,before⟩
      · cases Option.some.inj same
        exact .inl ⟨rfl,rfl,idle⟩
      · rw [here] at before
        contradiction
    | renew _ there _ _ _ _ items _ => exact (elsewhere there items).elim
    | start _ there _ _ _ _ items _ => exact (elsewhere there items).elim
    | requeue _ there _ _ _ _ _ _ items _ => exact (elsewhere there items).elim
    | retire _ there _ _ _ _ items _ => exact (elsewhere there items).elim

end CachePurge
