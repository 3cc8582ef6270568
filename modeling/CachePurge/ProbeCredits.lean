import CachePurge.RefreshPlaces
import CachePurge.WorkerSections

/-! The limit that the REFRESH pages of all workers share. The count in the slot of
a registered worker is the number of its pages that hold a credit, whatever the
other workers do, and the counts together stay within the limit. -/
namespace CachePurge
open General

def Pages.credits (s : Pages) (pid : Pid) : Nat := s.pages.countP fun page => page.pid == pid && page.job.credit

/- The worker's slot is its own: its pid is recorded there. -/
def System.registers (s : System) (p : Process) : Prop := s.queue.owners p.slot = p.pid

/- A page belongs to a process that is still there, and only a probe holds a credit. -/
structure Pages.Housed (s : Pages) : Prop where
  ids : (s.pages.map Page.id).Nodup
  placed : ∀ page ∈ s.pages, page.id < s.opened ∧ ∃ p ∈ s.system.procs, p.pid = page.pid
  probing : ∀ page ∈ s.pages, page.job.credit = true → page.job.active = true ∧ page.job.request = true

structure Pages.Credited (s : Pages) : Prop extends s.Housed where
  system : s.system.Valid
  slots : ∀ p ∈ s.system.procs, p.slot < maxProcesses ∧ p.pid ≠ 0
  total : probeTotal s.system.queue ≤ refreshProbes
  counts : ∀ p ∈ s.system.procs, s.system.registers p → s.system.queue.probes p.slot = s.credits p.pid

section counting
variable {s : Pages} {page : Page} {pid : Pid}

def Page.weight (pid : Pid) (page : Page) : Nat := if page.pid == pid && page.job.credit then 1 else 0

theorem soleFirst {pages : List Page} (ids : (pages.map Page.id).Nodup) (member : page ∈ pages) :
    pages.Perm (page :: pages.filter fun other => other.id != page.id) := by
  induction pages with
  | nil => simp at member
  | cons first rest ih =>
    obtain ⟨apart,ids⟩ := List.nodup_cons.mp ids
    rcases List.mem_cons.mp member with rfl | later
    · have same : rest.filter (fun other => other.id != page.id) = rest :=
        List.filter_eq_self.mpr fun other there => by
          simpa using fun same => apart (List.mem_map.mpr ⟨other,there,same⟩)
      simp [same]
    · have other : first.id ≠ page.id := fun same => apart (List.mem_map.mpr ⟨page,later,same.symm⟩)
      rw [List.filter_cons_of_pos (by simpa using other)]
      exact ((ih ids later).cons first).trans (List.Perm.swap page first _)

theorem solePage (ids : (s.pages.map Page.id).Nodup) (member : page ∈ s.pages) {other : Page} (there : other ∈ s.pages)
    (here : other.id = page.id) : other = page := List.inj_on_of_nodup_map ids there member here

theorem creditsClosed (ids : (s.pages.map Page.id).Nodup) (member : page ∈ s.pages) :
    (s.close page).credits pid + page.weight pid = s.credits pid := by
  rw [Pages.credits,Pages.credits,(soleFirst ids member).countP_eq,List.countP_cons]
  rfl

theorem creditsRevised (ids : (s.pages.map Page.id).Nodup) (member : page ∈ s.pages) (f : Page → Page) :
    (s.revise page.id f).credits pid + page.weight pid = s.credits pid + (f page).weight pid := by
  have rest : (s.pages.filter fun other => other.id != page.id).map
      (fun other => if other.id == page.id then f other else other) =
      s.pages.filter fun other => other.id != page.id := by
    refine (List.map_congr_left fun other there => ?_).trans (List.map_id _)
    have apart : other.id ≠ page.id := by simpa using (List.mem_filter.mp there).2
    simp [apart]
  have first := soleFirst ids member
  have revised := first.map fun other => if other.id == page.id then f other else other
  simp only [List.map_cons,beq_self_eq_true,if_true,rest] at revised
  rw [Pages.credits,Pages.credits,Pages.revise,revised.countP_eq,first.countP_eq,List.countP_cons,List.countP_cons]
  unfold Page.weight
  omega

theorem weightOther (other : page.pid ≠ pid) : page.weight pid = 0 := by simp [Page.weight,other]

theorem weightIdle (idle : page.job.credit = false) : page.weight pid = 0 := by simp [Page.weight,idle]

theorem weightOwn (holds : page.job.credit = true) : page.weight page.pid = 1 := by simp [Page.weight,holds]

end counting

section probes
variable {q : Queue}

theorem probesValid {s : System} (valid : s.Valid) (probes : Slot → Nat) :
    ({s with queue := {s.queue with probes := probes}} : System).Valid :=
  ⟨registryValid valid.queue s.queue.owners probes,valid.pids,valid.slots,valid.registered,
    fun p member t holds => ⟨(valid.holding p member t holds).held,(valid.holding p member t holds).registered,
      (valid.holding p member t holds).holder⟩⟩

theorem totalSum (q : Queue) : probeTotal q = ∑ i ∈ Finset.range maxProcesses, q.probes i := rfl

theorem totalBelow {q' : Queue} (fewer : ∀ i, q'.probes i ≤ q.probes i) : probeTotal q' ≤ probeTotal q := by
  rw [totalSum,totalSum]
  exact Finset.sum_le_sum fun i _ => fewer i

theorem totalProbing {slot : Slot} (within : slot < maxProcesses) : probeTotal (q.probing slot) = probeTotal q + 1 := by
  have written := @sumWritten Slot _ (Finset.range maxProcesses) slot q.probes (Finset.mem_range.mpr within)
    (q.probes slot + 1)
  rw [← totalSum q] at written
  rw [totalSum (q.probing slot)]
  exact Nat.add_right_cancel (written.trans (by rw [Nat.add_comm (q.probes slot) 1,Nat.add_assoc]))

theorem reclaimFewer (alive : Pid → Bool) (i : Slot) : (reclaimProbes alive q).probes i ≤ q.probes i := by
  simp only [reclaimProbes]
  split
  · exact Nat.zero_le _
  · exact le_rfl

theorem reclaimKeeps {s : System} {p : Process} (member : p ∈ s.procs) (named : p.pid ≠ 0) (mine : s.registers p)
    (claims : Pid → Bool) : (reclaimProbes (s.alive claims) s.queue).probes p.slot = s.queue.probes p.slot := by
  have seen : s.alive claims p.pid = true := by
    simp only [System.alive,Bool.or_eq_true,List.any_eq_true,beq_iff_eq]
    exact .inl ⟨p,member,rfl⟩
  simp only [reclaimProbes]
  rw [show s.queue.owners p.slot = p.pid from mine,seen]
  simp [named]

end probes

section pages
variable {s : Pages}

theorem housedRevise (housed : s.Housed) {id : Nat} {f : Page → Page} (mine : ∀ other ∈ s.pages, other.id = id →
    (f other).id = other.id ∧ (f other).pid = other.pid ∧
      ((f other).job.credit = true → (f other).job.active = true ∧ (f other).job.request = true)) :
    (s.revise id f).Housed := by
  have ids : (s.revise id f).pages.map Page.id = s.pages.map Page.id := by
    rw [Pages.revise,List.map_map]
    refine List.map_congr_left fun other there => ?_
    dsimp only [Function.comp]
    split
    · rename_i here
      exact (mine other there (by simpa using here)).1
    · rfl
  refine ⟨ids ▸ housed.ids,fun page inside => ?_,fun page inside => ?_⟩
  · obtain ⟨other,there,rfl⟩ := List.mem_map.mp inside
    split
    · rename_i here
      obtain ⟨id,pid,_⟩ := mine other there (by simpa using here)
      rw [id,pid]
      exact housed.placed other there
    · exact housed.placed other there
  · obtain ⟨other,there,rfl⟩ := List.mem_map.mp inside
    split
    · rename_i here
      exact (mine other there (by simpa using here)).2.2
    · exact housed.probing other there

theorem housedClose (housed : s.Housed) (page : Page) : (s.close page).Housed :=
  ⟨(List.filter_sublist.map Page.id).nodup housed.ids,
    fun other inside => housed.placed other (List.mem_filter.mp inside).1,
    fun other inside => housed.probing other (List.mem_filter.mp inside).1⟩

variable (credited : s.Credited)
include credited

theorem creditedRevise {id : Nat} {f : Page → Page} (mine : ∀ other ∈ s.pages, other.id = id →
    (f other).id = other.id ∧ (f other).pid = other.pid ∧ (f other).job.credit = other.job.credit ∧
      ((f other).job.credit = true → (f other).job.active = true ∧ (f other).job.request = true)) :
    (s.revise id f).Credited := by
  have housed := housedRevise credited.toHoused fun other there here =>
    have same := mine other there here
    ⟨same.1,same.2.1,same.2.2.2⟩
  refine ⟨housed,credited.system,credited.slots,credited.total,fun p member own => ?_⟩
  have same : (s.revise id f).credits p.pid = s.credits p.pid := by
    rw [Pages.credits,Pages.revise,List.countP_map]
    refine List.countP_congr fun other there => ?_
    dsimp only [Function.comp]
    split
    · rename_i here
      obtain ⟨_,pid,credit,_⟩ := mine other there (by simpa using here)
      rw [pid,credit]
    · rfl
  rw [same]
  exact credited.counts p member own

theorem creditedProbes {probes : Slot → Nat} (fewer : ∀ i, probes i ≤ s.system.queue.probes i)
    (kept : ∀ p ∈ s.system.procs, s.system.registers p → probes p.slot = s.system.queue.probes p.slot) :
    (s.setQueue {s.system.queue with probes := probes}).Credited := by
  refine ⟨⟨credited.ids,credited.placed,credited.probing⟩,probesValid credited.system probes,credited.slots,
    (totalBelow fewer).trans credited.total,fun p member own => ?_⟩
  exact (kept p member own).trans (credited.counts p member own)

theorem creditedReclaim (claims : Pid → Bool) :
    (s.setQueue (reclaimProbes (s.system.alive claims) s.system.queue)).Credited :=
  creditedProbes credited (reclaimFewer _) fun p member own => reclaimKeeps member (credited.slots p member).2 own claims

variable {p : Process} (running : p ∈ s.system.procs) (own : s.system.registers p)
include running own

omit own in
theorem creditedWrite (value : Nat) {s' : Pages} (system : s'.system =
      {s.system with queue := {s.system.queue with probes := Function.update s.system.queue.probes p.slot value}})
    (housed : s'.Housed) (total : probeTotal s'.system.queue ≤ refreshProbes) (mine : value = s'.credits p.pid)
    (others : ∀ pid, pid ≠ p.pid → s'.credits pid = s.credits pid) : s'.Credited := by
  refine ⟨housed,?_,?_,total,?_⟩
  · rw [system]
    exact probesValid credited.system _
  · rw [system]
    exact credited.slots
  · rw [system]
    intro r member registered
    change Function.update s.system.queue.probes p.slot value r.slot = _
    rcases eq_or_ne r.slot p.slot with same | apart
    · cases sameSlot credited.system.slots member running same
      rw [Function.update_self,mine]
    · have other : r.pid ≠ p.pid := fun same =>
        apart (congrArg Process.slot (samePid credited.system.pids member running same))
      rw [Function.update_of_ne apart,others r.pid other]
      exact credited.counts r member registered

variable {page : Page} (member : page ∈ s.pages) (owned : page.pid = p.pid)
include member owned

theorem creditedExchange (value : Nat) {f : Page → Page} (same : (f page).id = page.id ∧ (f page).pid = page.pid)
    (probing : (f page).job.credit = true → (f page).job.active = true ∧ (f page).job.request = true)
    (booked : value + page.weight p.pid = s.system.queue.probes p.slot + (f page).weight p.pid) {q : Queue}
    (written : q = {s.system.queue with probes := Function.update s.system.queue.probes p.slot value})
    (total : probeTotal q ≤ refreshProbes) : ((s.setQueue q).revise page.id f).Credited := by
  have revised (pid : Pid) := @creditsRevised (s.setQueue q) page pid credited.ids member f
  refine creditedWrite credited running value (by rw [written]; rfl) ?_ total ?_ fun pid other => ?_
  · refine @housedRevise (s.setQueue q) ⟨credited.ids,credited.placed,credited.probing⟩ page.id f
      fun other there here => ?_
    rw [solePage credited.ids member there here]
    exact ⟨same.1,same.2,probing⟩
  · have before := revised p.pid
    have count : s.system.queue.probes p.slot = (s.setQueue q).credits p.pid := credited.counts p running own
    omega
  · have before := revised pid
    rw [weightOther (by rw [owned]; exact Ne.symm other),
      weightOther (by rw [same.2,owned]; exact Ne.symm other)] at before
    exact before

theorem creditedTake (free : page.job.credit = false) (room : probeTotal s.system.queue < refreshProbes)
    {f : Page → Page} (same : (f page).id = page.id ∧ (f page).pid = page.pid)
    (holds : (f page).job.credit = true) (probing : (f page).job.active = true ∧ (f page).job.request = true) :
    ((s.setQueue (s.system.queue.probing p.slot)).revise page.id f).Credited := by
  refine creditedExchange credited running own member owned (s.system.queue.probes p.slot + 1) same
    (fun _ => probing) ?_ rfl ((totalProbing (credited.slots p running).1).trans_le room)
  rw [weightIdle free,← owned,← same.2,weightOwn holds]

theorem creditedHeld (holds : page.job.credit = true) : s.system.queue.probes p.slot ≠ 0 := by
  rw [credited.counts p running own]
  exact Nat.ne_of_gt (List.countP_pos_iff.mpr ⟨page,member,by simp [owned,holds]⟩)

omit running own member owned in
theorem releaseTotal (slot : Slot) : probeTotal (s.system.queue.returned slot) ≤ refreshProbes := by
  refine (totalBelow fun i => ?_).trans credited.total
  simp only [Queue.returned]
  rcases eq_or_ne i slot with rfl | other
  · simp
  · simp [other]

theorem creditedRelease {f : Page → Page} (same : (f page).id = page.id ∧ (f page).pid = page.pid)
    (freed : (f page).job.credit = false) :
    ((s.setQueue (releaseCredit p.slot page.job s.system.queue).2).revise page.id f).Credited := by
  rw [releaseCreditQueue]
  cases holds : page.job.credit with
  | false =>
    refine creditedRevise credited fun other there here => ?_
    rw [solePage credited.ids member there here,freed,holds]
    exact ⟨same.1,same.2,rfl,fun held => absurd held (by simp)⟩
  | true =>
    have some_ := creditedHeld credited running own member owned holds
    refine creditedExchange credited running own member owned (s.system.queue.probes p.slot - 1) same
      (fun held => absurd (freed.symm.trans held) (by simp)) ?_ rfl (releaseTotal credited p.slot)
    rw [weightIdle freed,← owned,weightOwn holds]
    omega

theorem creditedEnd : ((s.setQueue (releaseCredit p.slot page.job s.system.queue).2).close page).Credited := by
  have closed (q : Queue) (pid : Pid) := @creditsClosed (s.setQueue q) page pid credited.ids member
  rw [releaseCreditQueue]
  cases holds : page.job.credit with
  | false =>
    refine ⟨housedClose credited.toHoused page,credited.system,credited.slots,credited.total,fun r there mine => ?_⟩
    have before := closed s.system.queue r.pid
    rw [weightIdle holds] at before
    exact (credited.counts r there mine).trans before.symm
  | true =>
    let q := s.system.queue.returned p.slot
    refine creditedWrite credited running (s.system.queue.probes p.slot - 1) rfl ?_
      (releaseTotal credited p.slot) ?_ fun pid other => ?_
    · exact @housedClose (s.setQueue q) ⟨credited.ids,credited.placed,credited.probing⟩ page
    · have before := closed q p.pid
      rw [← owned,weightOwn holds,owned] at before
      have count : s.system.queue.probes p.slot = (s.setQueue q).credits p.pid := credited.counts p running own
      change _ = ((s.setQueue q).close page).credits p.pid
      omega
    · have before := closed q pid
      rw [weightOther (by rw [owned]; exact Ne.symm other)] at before
      exact before

end pages

section workers
variable {s : Pages}

theorem sectionsRegistry {procs : List Process} {q q' : Queue} (sections : Sections procs q q') :
    (∀ i, q'.probes i ≤ q.probes i) ∧
      ∀ i, (q'.owners i = q.owners i ∧ q'.probes i = q.probes i) ∨ q'.owners i = 0 := by
  induction sections with
  | refl => exact ⟨fun _ => le_rfl,fun _ => .inl ⟨rfl,rfl⟩⟩
  | tail _ last ih =>
    obtain ⟨fewer,kept⟩ := ih
    cases last with
    | accounted member entry =>
      have frame := changeFrame entry.change
      rw [frame.probes,frame.owners]
      exact ⟨fewer,kept⟩
    | @deregister r q member =>
      refine ⟨fun i => ?_,fun i => ?_⟩
      · simp only [deregister]
        rcases eq_or_ne i r.slot with rfl | other
        · simp
        · simpa [other] using fewer i
      · simp only [deregister]
        rcases eq_or_ne i r.slot with rfl | other
        · simp
        · simpa [other] using kept i

theorem creditsSurvive {system : System} {p : Process} (member : p ∈ system.procs) :
    ({s with system := system}.survive).credits p.pid = s.credits p.pid := by
  simp only [Pages.credits,Pages.survive]
  rw [List.countP_filter]
  refine List.countP_congr fun page _ => ?_
  simp only [Bool.and_eq_true,List.any_eq_true,beq_iff_eq]
  exact ⟨fun both => both.1,fun held => ⟨held,p,member,held.1.symm⟩⟩

theorem creditedStepped (credited : s.Credited) {system : System} (valid : system.Valid)
    (stepped : Stepped s.system system) : ({s with system := system}.survive).Credited := by
  have housed : ({s with system := system}.survive).Housed := by
    refine ⟨(List.filter_sublist.map Page.id).nodup credited.ids,fun page left => ?_,
      fun page left => credited.probing page (List.mem_filter.mp left).1⟩
    obtain ⟨there,alive⟩ := List.mem_filter.mp left
    simp only [List.any_eq_true,beq_iff_eq] at alive
    exact ⟨(credited.placed page there).1,alive⟩
  have seated : system.Seated := seatedStepped credited.slots stepped
  cases stepped with
  | @started pid slot threaded namespaces q' named pids slots init =>
    obtain ⟨_,_,_,_,_,_,_,_,owners,_,probes,_⟩ := initWorkerSpec init
    have fewer (i : Slot) : q'.probes i ≤ s.system.queue.probes i := by
      rw [probes]
      rcases eq_or_ne i slot with rfl | other
      · simp
      · simp [other]
    refine ⟨housed,valid,seated,(totalBelow fewer).trans credited.total,fun p inside own => ?_⟩
    refine Eq.trans ?_ (creditsSurvive inside).symm
    change q'.owners p.slot = p.pid at own
    change q'.probes p.slot = _
    rcases List.mem_append.mp inside with old | new
    · rw [owners,Function.update_of_ne (slots p old)] at own
      rw [probes,Function.update_of_ne (slots p old)]
      exact credited.counts p old own
    · have fresh : s.credits pid = 0 := by
        rw [Pages.credits,List.countP_eq_zero]
        intro page there
        obtain ⟨r,member,same⟩ := (credited.placed page there).2
        have other : page.pid ≠ pid := fun taken => pids r member (same.trans taken)
        simp [other]
      rw [List.mem_singleton.mp new,probes,Function.update_self]
      exact fresh.symm
  | worked inherits sections =>
    obtain ⟨fewer,kept⟩ := sectionsRegistry sections
    refine ⟨housed,valid,seated,(totalBelow fewer).trans credited.total,fun p inside own => ?_⟩
    refine Eq.trans ?_ (creditsSurvive inside).symm
    obtain ⟨r,member,pid,slot⟩ := inherits p inside
    change system.queue.owners p.slot = p.pid at own
    rcases kept p.slot with ⟨owner,same⟩ | none
    · change system.queue.probes p.slot = _
      rw [owner,slot,pid] at own
      rw [same,slot,pid]
      exact credited.counts r member own
    · exact absurd (own.symm.trans none) (seated p inside).2

theorem creditedWork (config : Config) (credited : s.Credited) (e : WorkerEvent) : (s.work config e).Credited :=
  creditedStepped credited (stepKeepsValid credited.system e) (stepStepped credited.system e)

theorem creditedBetween (config : Config) (events : List WorkerEvent) (credited : s.Credited) :
    (events.foldl (Pages.work config) s).Credited := by
  induction events generalizing s with
  | nil => exact credited
  | cons e rest ih => exact ih (creditedWork config credited e)

theorem enqueueKeeps (config : Config) {s : System} (valid : s.Valid) (p : Process) (purge : Purge) (o : Outcome) :
    (enqueueStep config p purge o s).1.Valid ∧ s.queue.Frame (enqueueStep config p purge o s).1.queue := by
  change ({s with queue := _, zones := _} : System).Valid ∧ s.queue.Frame
    (enqueue config.platform config.names (some p.slot) p.leaving purge o s.queue s.zones).2.1
  rcases eq_or_ne (enqueue config.platform config.names (some p.slot) p.leaving purge o s.queue s.zones).1 .ok with
    ok | refused
  · obtain ⟨_,_,a,t,_,⟨_,_,_,_,entry⟩ | entry⟩ := enqueueAccepted valid.queue.toCatalog ok
    · exact ⟨movedValid valid _ entry.change (by simp [Act.ends]),changeFrame entry.change⟩
    · exact ⟨movedValid valid _ entry.change (by simp [Act.ends]),changeFrame entry.change⟩
  · rw [enqueueRefused refused]
    exact ⟨valid,rfl,rfl,fun _ => rfl,rfl,rfl,rfl⟩

theorem creditedEnqueue (config : Config) (credited : s.Credited) (p : Process) (purge : Purge) (o : Outcome) :
    ({s with system := (enqueueStep config p purge o s.system).1} : Pages).Credited := by
  obtain ⟨valid,frame⟩ := enqueueKeeps config credited.system p purge o
  refine ⟨⟨credited.ids,credited.placed,credited.probing⟩,valid,credited.slots,
    (totalBelow fun i => by rw [frame.probes]).trans credited.total,fun r member own => ?_⟩
  change (enqueueStep config p purge o s.system).1.queue.owners r.slot = r.pid at own
  change (enqueueStep config p purge o s.system).1.queue.probes r.slot = _
  rw [frame.owners] at own
  rw [frame.probes]
  exact credited.counts r member own

end workers

/- The registered process runs the page that is stored under the id. -/
structure Pages.Runs (s : Pages) (p : Process) (page : Page) : Prop where
  running : p ∈ s.system.procs
  own : s.system.registers p
  stored : ∃ stored ∈ s.pages, stored.id = page.id ∧ stored.pid = p.pid

def Pages.Idle (s : Pages) (id : Nat) : Prop := ∀ other ∈ s.pages, other.id = id → other.job.credit = false

section steps
variable {config : Config} {p : Process} {page : Page} {a : StepAnswer} {s : Pages} {job : RefreshJob}
  (credited : s.Credited) (idle : s.Idle page.id) (free : job.credit = false)
include credited idle

theorem creditedClose : (s.close page).Credited := by
  refine ⟨housedClose credited.toHoused page,credited.system,credited.slots,credited.total,fun p member own => ?_⟩
  have same : (s.close page).credits p.pid = s.credits p.pid := by
    rw [Pages.credits,Pages.close,List.countP_filter]
    refine List.countP_congr fun other there => ?_
    simp only [Bool.and_eq_true,bne_iff_ne,and_iff_left_iff_imp,and_imp]
    intro _ holds here
    rw [idle other there here] at holds
    contradiction
  rw [same]
  exact credited.counts p member own

include free

theorem creditedSet : (s.setJob page.id job).Credited :=
  creditedRevise credited fun other there here => ⟨rfl,rfl,free.trans (idle other there here).symm,
    fun holds => absurd (free.symm.trans holds) (by simp)⟩

theorem creditedProbe (runs : s.Runs p page) (request : job.request = true) (found : Found) :
    (probeStep config p page a job found s).1.Credited := by
  obtain ⟨running,own,stored,member,here,owned⟩ := runs
  have spec := @refreshProbeSpec (config.names job.conf.ns) p.slot (s.system.alive a.claims) a.probe
    (s.system.zones job.conf.ns) found job s.system.queue
  have reclaimed := creditedReclaim credited a.claims
  unfold probeStep
  dsimp only
  generalize refreshProbe (config.names job.conf.ns) p.slot (s.system.alive a.claims) a.probe
    (s.system.zones job.conf.ns) found job s.system.queue = outcome at spec
  cases spec with
  | declined _ same queue =>
    subst same queue
    exact creditedSet credited idle free
  | again same queue =>
    subst same
    rcases queue with rfl | rfl
    · exact creditedSet credited idle free
    · exact creditedSet reclaimed idle free
  | failed same queue =>
    subst same queue
    exact creditedSet reclaimed idle rfl
  | sent _ same room queue =>
    subst same queue
    simp only [if_true]
    rw [← here]
    exact creditedTake reclaimed running own member owned (idle stored member here) room ⟨rfl,rfl⟩ rfl ⟨rfl,request⟩

theorem creditedEntry (runs : s.Runs p page) (request : job.request = true) (entry : RefreshEntry) :
    (entryStep config p page a job entry s).1.Credited := by
  unfold entryStep
  split
  · have sub := (@refreshInvalidateSpec config p page a job entry.found s).1.1
    have kept : (refreshInvalidate config p page a job entry.found s).2.1.Credited := by
      unfold refreshInvalidate
      split
      · exact creditedEnqueue config (creditedBetween config _ credited) p _ a.outcome
      · exact credited
    have idle : (refreshInvalidate config p page a job entry.found s).2.1.Idle page.id :=
      fun other there here => idle other (sub.mem there) here
    dsimp only
    split
    · exact creditedSet kept idle free
    · exact creditedSet kept idle free
  · split
    · exact creditedProbe credited idle free runs request entry.found
    · exact creditedSet credited idle free

theorem creditedScanned (runs : s.Runs p page) (request : job.request = true) (scan : RefreshScan) :
    (scannedStep config p page a job scan s).1.Credited := by
  unfold scannedStep
  split
  · exact creditedClose credited idle
  · split
    · exact creditedClose credited idle
    · exact creditedEntry credited idle free runs request _

theorem creditedScan (runs : s.Runs p page) (request : job.request = true) (scan : RefreshScan) :
    (scanStep config p page a job scan s).1.Credited := by
  unfold scanStep
  split
  · exact creditedScanned credited idle free runs request scan
  · split
    · exact creditedSet credited idle free
    · dsimp only
      split
      · exact creditedSet credited idle free
      · exact @creditedScanned config p page a s {job with scan := some _} credited idle free runs request _

end steps

section pages
variable {config : Config} {p : Process} {page : Page} {a : StepAnswer} {s : Pages}
  (credited : s.Credited) (runs : s.Runs p page)
  (same : ∀ other ∈ s.pages, other.id = page.id → other.job.credit = page.job.credit)
  (probing : page.job.credit = true → page.job.active = true ∧ page.job.request = true)
include credited same probing

omit credited same probing in
theorem expireCredit (job : RefreshJob) (now : UInt64) (leaving : Bool) :
    (job.expire now leaving).credit = job.credit ∧ (job.expire now leaving).active = job.active ∧
      (job.expire now leaving).request = job.request := by
  unfold RefreshJob.expire
  split <;> exact ⟨rfl,rfl,rfl⟩

theorem creditedStay {job : RefreshJob} (credit : job.credit = page.job.credit) (active : job.active = page.job.active)
    (request : job.request = page.job.request) : (s.setJob page.id job).Credited :=
  creditedRevise credited fun other there here => ⟨rfl,rfl,credit.trans (same other there here).symm,fun holds => by
    rw [active,request]
    exact probing (credit.symm.trans holds)⟩

include runs

theorem creditedRefresh : (refreshStep config p page a s).1.Credited := by
  obtain ⟨credit,active,request⟩ := expireCredit page.job a.now p.leaving
  unfold refreshStep
  dsimp only
  split
  · exact creditedStay credited same probing rfl rfl rfl
  rename_i asked
  split
  · exact creditedStay credited same probing credit active request
  rename_i rests
  simp only [Bool.or_eq_true,not_or,Bool.not_eq_true,active] at rests
  have free : page.job.credit = false := by
    by_contra holds
    have busy := (probing (by simpa using holds)).1
    rw [rests.2] at busy
    contradiction
  have idle : s.Idle page.id := fun other there here => (same other there here).trans free
  have open_ : (page.job.expire a.now p.leaving).request = true := request.trans (by simpa using asked)
  split
  · exact creditedClose credited idle
  split
  · exact creditedStay credited same probing credit active request
  split
  · exact creditedScan credited idle (credit.trans free) runs open_ _
  · let s' : Pages := {s with current := Function.update s.current page.pid (some page.id)}
    have credited' : s'.Credited := ⟨⟨credited.ids,credited.placed,credited.probing⟩,credited.system,credited.slots,
      credited.total,credited.counts⟩
    have runs' : s'.Runs p page := ⟨runs.running,runs.own,runs.stored⟩
    split
    · exact creditedClose credited' idle
    · rename_i job prepared
      obtain ⟨threaded,rfl⟩ := preparedFresh prepared
      exact @creditedScan config p page a s' {page.job.expire a.now p.leaving with scan := some _, threaded := threaded}
        credited' idle (credit.trans free) runs' open_ _

end pages

theorem doneCredit (slot : Slot) (status : Nat) {job : RefreshJob} (q : Queue) (active : job.active = true) :
    (refreshDone slot status job q).1.credit = false ∧ (refreshDone slot status job q).2 = (releaseCredit slot job q).2 := by
  unfold refreshDone
  rw [active]
  simp only [Bool.not_true,Bool.false_eq_true,if_false,releaseCreditQueue,releaseCreditJob]
  refine ⟨?_,trivial⟩
  unfold RefreshJob.settle
  split
  · rfl
  split
  · rfl
  split <;> rfl

section events
variable {config : Config} {late : Bool} {p : Process} {page : Page} {s : Pages} (credited : s.Credited)
  (running : p ∈ s.system.procs) (own : s.system.registers p) (member : page ∈ s.pages) (owned : page.pid = p.pid)
include credited running own member owned

theorem creditedComplete (probe status : Nat) : (completeStep p page probe status s).1.Credited := by
  unfold completeStep
  dsimp only
  cases active : page.job.active with
  | true =>
    obtain ⟨freed,queue⟩ := doneCredit p.slot status s.system.queue active
    rw [queue]
    exact creditedRelease credited running own member owned ⟨rfl,rfl⟩ freed
  | false =>
    have nothing : refreshDone p.slot status page.job s.system.queue = (page.job,s.system.queue) := by
      simp [refreshDone,active]
    rw [nothing]
    refine creditedRevise credited fun other there here => ?_
    rw [solePage credited.ids member there here]
    exact ⟨rfl,rfl,rfl,credited.probing page member⟩

theorem creditedPage (e : RefreshEvent) : (pageStep config late p page s e).1.Credited := by
  have same (other : Page) (there : other ∈ s.pages) (here : other.id = page.id) : other.job.credit = page.job.credit := by
    rw [solePage credited.ids member there here]
  have probing := credited.probing page member
  have queue : (refreshCleanup p.slot page.job s.system.queue).2 = (releaseCredit p.slot page.job s.system.queue).2 := by
    simp only [refreshCleanup,releaseCreditQueue]
  have turn := pageCases config late p page s e
  generalize pageStep config late p page s e = out at turn ⊢
  cases turn with
  | idle => exact credited
  | @timer id a =>
    exact @creditedRefresh config p {page with job := {page.job with timer := false}} a s credited
      ⟨running,own,page,member,rfl,owned⟩ same probing
  | slice posted open_ => exact creditedStay credited same probing rfl rfl rfl
  | closed gone =>
    refine creditedClose credited fun other there here => ?_
    rw [same other there here]
    by_contra holds
    have asked := (probing (by simpa using holds)).2
    exact Bool.noConfusion (gone.symm.trans asked)
  | @told id a ran alive =>
    exact @creditedRefresh config p {page with job := _} a s credited ⟨running,own,page,member,rfl,owned⟩ same probing
  | rejected alive flying => exact creditedStay credited same probing rfl rfl rfl
  | @completed id probe status called => exact creditedComplete credited running own member owned probe status
  | left_ =>
    rw [queue]
    exact creditedEnd credited running own member owned
  | @cut id job kept =>
    have freed : job.credit = false := by
      simp only [refreshCleanup,releaseCreditJob] at kept
      split at kept
      · contradiction
      · rw [← Option.some.inj kept]
    rw [queue]
    exact creditedRelease credited running own member owned ⟨rfl,rfl⟩ freed

end events

section runs
variable {config : Config} {late : Bool} {s : Pages}

theorem creditedStart (credited : s.Credited) {pid : Pid} {p : Process} (running : p ∈ s.system.procs)
    (mine : p.pid = pid) (conf : RefreshConf) (deadline : UInt64) (after : Bytes) :
    (startPage pid conf deadline after s).Credited := by
  refine ⟨⟨?_,fun page inside => ?_,fun page inside => ?_⟩,credited.system,credited.slots,credited.total,
    fun r member own => ?_⟩
  · simp only [startPage,List.map_append,List.map_cons,List.map_nil]
    refine List.nodup_append.mpr ⟨credited.ids,by simp,fun id present other new same => ?_⟩
    obtain ⟨page,member,rfl⟩ := List.mem_map.mp present
    rw [List.mem_singleton.mp new] at same
    exact absurd (credited.placed page member).1 (by simp [same])
  · rcases List.mem_append.mp inside with present | new
    · exact ⟨Nat.lt_succ_of_lt (credited.placed page present).1,(credited.placed page present).2⟩
    · rw [List.mem_singleton.mp new]
      exact ⟨Nat.lt_succ_self _,p,running,mine⟩
  · rcases List.mem_append.mp inside with present | new
    · exact credited.probing page present
    · rw [List.mem_singleton.mp new]
      simp [RefreshJob.fresh]
  · have same : (startPage pid conf deadline after s).credits r.pid = s.credits r.pid := by
      simp [Pages.credits,startPage,RefreshJob.fresh]
    rw [same]
    exact credited.counts r member own

theorem creditedStep (credited : s.Credited) (e : RefreshEvent) : (s.step config late e).1.Credited := by
  have turn := pagesCases config late s e
  generalize s.step config late e = out at turn ⊢
  cases turn with
  | idle => exact credited
  | @worked e => exact creditedWork config credited e
  | @started pid conf deadline after p running mine => exact creditedStart credited running mine conf deadline after
  | visited member called running owned present =>
    have own := credited.system.registered _ running present
    exact creditedPage credited running own member owned.symm e

theorem creditedInit (maxSize : Nat) (paths : List (Nat × Bytes)) (epochs : Nat → Epoch) :
    (refreshInit maxSize paths epochs).Credited := by
  refine ⟨⟨?_,?_,?_⟩,initSystemValid maxSize paths epochs,?_,?_,?_⟩ <;>
    simp [refreshInit,systemInit,queueInit,probeTotal]

def Pages.probes (s : Pages) : Nat := s.pages.countP fun page => page.job.credit &&
  s.system.procs.any fun p => p.pid == page.pid && s.system.queue.owners p.slot == p.pid

theorem probesBelow (credited : s.Credited) : s.probes ≤ probeTotal s.system.queue := by
  let held := s.pages.filter fun page => page.job.credit &&
    s.system.procs.any fun p => p.pid == page.pid && s.system.queue.owners p.slot == p.pid
  let home (page : Page) : Slot := ((s.system.find page.pid).map Process.slot).getD 0
  have housed (page : Page) (member : page ∈ held) : ∃ p ∈ s.system.procs, p.pid = page.pid ∧
      s.system.registers p ∧ home page = p.slot ∧ page.job.credit = true := by
    obtain ⟨_,holds⟩ := List.mem_filter.mp member
    simp only [Bool.and_eq_true,List.any_eq_true,beq_iff_eq] at holds
    obtain ⟨credit,p,running,pid,own⟩ := holds
    refine ⟨p,running,pid,own,?_,credit⟩
    cases found : s.system.find page.pid with
    | none => exact absurd pid (by simpa using List.find?_eq_none.mp found p running)
    | some r =>
      obtain ⟨there,same⟩ := findMember found
      have mine : r = p := samePid credited.system.pids there running (same.trans pid.symm)
      simp [home,found,mine]
  have within (page : Page) (member : page ∈ held) : home page < maxProcesses := by
    obtain ⟨p,running,_,_,slot,_⟩ := housed page member
    exact slot ▸ (credited.slots p running).1
  rw [Pages.probes,List.countP_eq_length_filter,countedByHome fun page member =>
    Finset.mem_range.mpr (within page member),totalSum]
  refine Finset.sum_le_sum fun i _ => ?_
  rcases Nat.eq_zero_or_pos (held.countP fun page => decide (home page = i)) with none | some_
  · exact none ▸ Nat.zero_le _
  · -- The pages at home in the slot are pages of the one process that is registered there.
    obtain ⟨page,member,here⟩ := List.countP_pos_iff.mp some_
    obtain ⟨p,running,_,own,slot,_⟩ := housed page member
    have at_ : p.slot = i := slot.symm.trans (by simpa using here)
    rw [← at_,credited.counts p running own,Pages.credits,List.countP_filter]
    refine List.countP_mono_left fun other there both => ?_
    simp only [Bool.and_eq_true] at both
    obtain ⟨r,present,pid,_,slot',credit⟩ := housed other (List.mem_filter.mpr ⟨there,by simpa using both.2⟩)
    have same : r = p := sameSlot credited.system.slots present running (slot'.symm.trans (by simpa using both.1))
    rw [← pid,same,credit]
    simp

end runs

/- In every state of every run the slots together stay within the limit, the slot of
a registered worker counts its pages with a credit, every worker that has not left
is registered, a release takes one probe off the worker's own slot when its page
holds a credit and changes nothing otherwise, and the probes with a credit stay
within the limit. -/
theorem probeLimit (config : Config) (late : Bool) (maxSize : Nat) (paths : List (Nat × Bytes))
    (epochs : Nat → Epoch) (events : List RefreshEvent) :
    let s := (refreshMachine config late).after (refreshInit maxSize paths epochs) events
    let q := s.system.queue
    probeTotal q ≤ refreshProbes ∧
    (∀ p ∈ s.system.procs, q.owners p.slot = p.pid → q.probes p.slot = s.credits p.pid) ∧
    (∀ p ∈ s.system.procs, p.exited = false → q.owners p.slot = p.pid) ∧
    (∀ p ∈ s.system.procs, q.owners p.slot = p.pid → ∀ page ∈ s.pages, page.pid = p.pid →
      let q' := (releaseCredit p.slot page.job q).2
      (page.job.credit = true → q.probes p.slot = q'.probes p.slot + 1) ∧
      (page.job.credit = false → q' = q) ∧ ∀ i, i ≠ p.slot → q'.probes i = q.probes i) ∧
    s.probes ≤ refreshProbes := by
  intro s q
  have credited : s.Credited := (refreshMachine config late).invariant (P := Pages.Credited)
    (fun _ e credited => creditedStep credited e) (creditedInit maxSize paths epochs) events
  refine ⟨credited.total,credited.counts,credited.system.registered,fun p running own page member owned => ?_,
    (probesBelow credited).trans credited.total⟩
  have some_ := creditedHeld credited running own member owned
  intro q'
  have released : q' = if page.job.credit then q.returned p.slot else q := releaseCreditQueue p.slot q
  refine ⟨fun holds => ?_,fun free => ?_,fun i other => ?_⟩
  · have back : q'.probes p.slot = q.probes p.slot - 1 := by
      rw [released,if_pos holds]
      simp [Queue.returned]
    have count : q.probes p.slot ≠ 0 := some_ holds
    omega
  · rw [released,free]
    rfl
  · rw [released]
    split
    · simp [Queue.returned,other]
    · rfl

end CachePurge
