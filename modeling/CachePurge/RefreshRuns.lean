import CachePurge.QueueOperations
import CachePurge.RefreshMoves
import Mathlib.Data.List.Nodup

/-! Every event of a page is a list of moves of that page alone; so in every run a
page invalidates only on the evidence of its own probe. -/
namespace CachePurge
open General

section jobs
variable {job : RefreshJob} {sent : Nat} {flying : List Nat}

@[simp] theorem recordEntries (f : RefreshEntry → RefreshEntry) :
    (job.record f).entries = job.entries.modify job.position f := by
  unfold RefreshJob.record RefreshJob.entries
  cases job.scan <;> simp

@[simp] theorem recordScanned (f : RefreshEntry → RefreshEntry) : (job.record f).scanned = job.scanned := by
  unfold RefreshJob.record RefreshJob.scanned
  cases job.scan <;> rfl

theorem expireProgress (now : UInt64) (leaving : Bool) :
    (job.expire now leaving).progress sent flying = job.progress sent flying := by
  unfold RefreshJob.expire
  split
  · unfold RefreshJob.progress RefreshJob.entries RefreshJob.scanned
    cases job.scan <;> rfl
  · rfl

theorem expireKeeps (now : UInt64) (leaving : Bool) : (job.expire now leaving).conf = job.conf ∧
    (job.expire now leaving).task = job.task ∧
    (job.expire now leaving).scanning = job.scanning := by
  unfold RefreshJob.expire
  split <;> exact ⟨rfl,rfl,rfl⟩

theorem entryAt : job.entry = job.entries[job.position]? := by
  unfold RefreshJob.entry RefreshJob.entries
  cases job.scan <;> rfl

theorem releaseCreditJob (slot : Slot) (q : Queue) :
    (releaseCredit slot job q).1 = {job with credit := false} := by
  unfold releaseCredit refreshCredit
  cases held : job.credit with
  | true => simp [probeCredit]
  | false => simp [← held]

theorem cleanupLeaves {slot : Slot} {kept : RefreshJob} {q : Queue}
    (left : (refreshCleanup slot job q).1 = some kept) : kept.request = false := by
  simp only [refreshCleanup,releaseCreditJob] at left
  split at left
  · contradiction
  · rw [← Option.some.inj left]

/- One more probe in the slot, and one less. -/
def Queue.probing (slot : Slot) (q : Queue) : Queue :=
  {q with probes := Function.update q.probes slot (q.probes slot + 1)}

def Queue.returned (slot : Slot) (q : Queue) : Queue :=
  {q with probes := Function.update q.probes slot (q.probes slot - 1)}

theorem releaseCreditQueue (slot : Slot) (q : Queue) :
    (releaseCredit slot job q).2 = if job.credit then q.returned slot else q := by
  unfold releaseCredit refreshCredit
  cases held : job.credit <;> simp [probeCredit,Queue.returned]

theorem preparedFresh {answer : PrepareAnswer} {job' : RefreshJob} (prepared : prepareScan answer job = some job') :
    ∃ threaded, job' = {job with scan := some ⟨[],false,false,false,false,false⟩, threaded := threaded} := by
  unfold prepareScan at prepared
  split at prepared
  · contradiction
  dsimp only at prepared
  split at prepared
  · exact ⟨_,(Option.some.inj prepared).symm⟩
  split at prepared
  · exact ⟨_,(Option.some.inj prepared).symm⟩
  · contradiction

theorem takeCreditJob (slot : Slot) (alive : Pid → Bool) (locked : Bool) (q : Queue) :
    ((refreshCredit slot alive true locked job q).1 = .ok ∧
      (refreshCredit slot alive true locked job q).2.1 = {job with credit := true} ∧
      probeTotal (reclaimProbes alive q) < refreshProbes ∧
      (refreshCredit slot alive true locked job q).2.2 = (reclaimProbes alive q).probing slot) ∨
    ((refreshCredit slot alive true locked job q).1 ≠ .ok ∧
      (refreshCredit slot alive true locked job q).2.1 = job ∧
      ((refreshCredit slot alive true locked job q).2.2 = q ∨
        (refreshCredit slot alive true locked job q).2.2 = reclaimProbes alive q)) := by
  cases locked with
  | false => exact .inr (by simp [refreshCredit,probeCredit])
  | true =>
    rcases Nat.lt_or_ge (probeTotal (reclaimProbes alive q)) refreshProbes with room | full
    · have under : ¬refreshProbes ≤ probeTotal (reclaimProbes alive q) := not_le.mpr room
      exact .inl (by simp [refreshCredit,probeCredit,under,room,Queue.probing])
    · exact .inr (by simp [refreshCredit,probeCredit,full])

theorem mapEntrySpec (name : Name) (z : Zone) (found : Found) :
    (∃ uri etag modified, (mapEntry name z found job).2 =
      {job with uri := uri, etag := etag, modified := modified}) ∧
    ((mapEntry name z found job).1 = .pending → Mapped name job.conf.refreshPrefix found) := by
  unfold mapEntry
  split
  · rename_i logical current
    split
    · exact ⟨⟨_,_,_,rfl⟩,by simp⟩
    rename_i plain
    split
    · exact ⟨⟨_,_,_,rfl⟩,by simp⟩
    rename_i inside
    dsimp only
    split
    · exact ⟨⟨_,_,_,rfl⟩,by simp⟩
    rename_i uri
    split
    · exact ⟨⟨_,_,_,rfl⟩,by simp⟩
    rename_i etag
    refine ⟨⟨_,_,_,rfl⟩,fun _ => ⟨by simpa using plain,?_,by simpa using etag⟩⟩
    simp only [Bool.or_eq_true,decide_eq_true_eq,not_or,not_le,ne_eq,Decidable.not_not] at inside
    unfold generationCurrent at current
    split at current
    · simp at current
    · rename_i d decoded
      have same : d.logical = logical := by
        split at current <;> simp_all
      refine ⟨d,decoded,?_,by simpa [same] using uri⟩
      rw [same,← inside.2]
      exact List.take_prefix _ _
  · exact ⟨⟨_,_,_,rfl⟩,by simp⟩

end jobs

section spec
variable {name : Name} {slot : Slot} {alive : Pid → Bool} {answer : ProbeAnswer} {z : Zone} {found : Found}
  {job : RefreshJob} {q : Queue}

/- The outcomes of a probe: the job differs from the one before in what the profile
reads, and in its credit and the probe when one was sent. -/
inductive Probed (name : Name) (slot : Slot) (alive : Pid → Bool) (found : Found) (job : RefreshJob) (q : Queue) :
    Rc × RefreshJob × Queue → Prop where
  | declined {result uri etag modified job' q'} (final : result ≠ RefreshResult.pending)
      (same : job' = RefreshJob.result result {job with uri := uri, etag := etag, modified := modified})
      (queue : q' = q) : Probed name slot alive found job q (.declined,job',q')
  | again {uri etag modified job' q'} (same : job' = {job with uri := uri, etag := etag, modified := modified})
      (queue : q' = q ∨ q' = reclaimProbes alive q) : Probed name slot alive found job q (.again,job',q')
  | failed {uri etag modified job' q'}
      (same : job' = {job with uri := uri, etag := etag, modified := modified, credit := false})
      (queue : q' = reclaimProbes alive q) : Probed name slot alive found job q (.error,job',q')
  | sent {uri etag modified job' q'} (mapped : Mapped name job.conf.refreshPrefix found) (same : job' =
      {job with uri := uri, etag := etag, modified := modified, credit := true, active := true})
      (room : probeTotal (reclaimProbes alive q) < refreshProbes)
      (queue : q' = (reclaimProbes alive q).probing slot) : Probed name slot alive found job q (.ok,job',q')

theorem refreshProbeSpec :
    Probed name slot alive found job q (refreshProbe name slot alive answer z found job q) := by
  obtain ⟨⟨uri,etag,modified,same⟩,mapped⟩ := @mapEntrySpec job name z found
  unfold refreshProbe
  dsimp only
  split
  · rename_i final
    exact .declined final (by rw [same]) rfl
  · rename_i clear
    have mapped := mapped (by simpa using clear)
    rw [same]
    rcases @takeCreditJob {job with uri := uri, etag := etag, modified := modified} slot alive
      answer.locked q with ⟨granted,taken,room,queue⟩ | ⟨refused,kept,queue⟩
    · rw [if_neg (by simp [granted]),taken,queue]
      -- What a failed subrequest has taken it gives back.
      have returned (job : RefreshJob) (held : job.credit = true) :
          releaseCredit slot job ((reclaimProbes alive q).probing slot) =
            ({job with credit := false},reclaimProbes alive q) := by
        refine Prod.ext (releaseCreditJob _ _) ?_
        rw [releaseCreditQueue,if_pos held]
        simp [Queue.probing,Queue.returned]
      split
      · rw [returned _ rfl]
        exact .failed rfl rfl
      split
      · rw [returned _ rfl]
        exact .failed rfl rfl
      · exact .sent mapped rfl room rfl
    · rw [if_pos refused]
      exact .again kept queue

end spec

section invalidation
variable {config : Config} {p : Process} {page : Page} {a : StepAnswer} {job : RefreshJob} {found : Found}
  {s : Pages}

theorem publishedCurrent {names : Nat → Name} {purge : Purge} {o : Outcome} {zones : Nat → Zone} {n : Nat}
    {encoded : Bytes} (named : purge.ns = some n) (expected : purge.expected = some encoded)
    (ok : (purge.publish names o zones).1 = .ok) :
    (generationCurrent (names n) (zones n) encoded).1 = .ok := by
  simp only [Purge.publish,named] at ok
  rcases invalidateOutcome (names n) (purge.invalidation o) (zones n) with ⟨refused,_⟩ | ⟨_,_,_,admitted,_⟩
  · exact absurd ok refused
  · simp only [expectedMatches,Purge.invalidation,expected] at admitted
    unfold generationCurrent
    split at admitted
    · contradiction
    · rename_i d decoded
      simp only [Bool.and_eq_true,beq_iff_eq] at admitted
      obtain ⟨⟨logical,epoch⟩,generation⟩ := admitted
      simp [epoch,logical,generation]

theorem workedPages (events : List WorkerEvent) :
    (events.foldl (Pages.work config) s).pages.Sublist s.pages ∧
      (events.foldl (Pages.work config) s).opened = s.opened := by
  induction events generalizing s with
  | nil => exact ⟨.refl _,rfl⟩
  | cons e rest ih =>
    obtain ⟨sub,opened⟩ := @ih (s.work config e)
    exact ⟨sub.trans List.filter_sublist,opened⟩

theorem refreshInvalidateSpec :
    ((refreshInvalidate config p page a job found s).2.1.pages.Sublist s.pages ∧
      (refreshInvalidate config p page a job found s).2.1.opened = s.opened) ∧
    ((refreshInvalidate config p page a job found s).2.2 = [] ∨
    ∃ zone, KeyCurrent config job.conf found zone (refreshInvalidate config p page a job found s).1 ∧
      (refreshInvalidate config p page a job found s).2.2 =
        [.enqueued page.id job.position job.conf found zone
          (refreshInvalidate config p page a job found s).1]) := by
  unfold refreshInvalidate
  split
  · refine ⟨workedPages _,.inr ⟨_,fun ok => ?_,rfl⟩⟩
    exact publishedCurrent rfl rfl (enqueuePublished ok)
  · exact ⟨⟨.refl _,rfl⟩,.inl rfl⟩

end invalidation

def Sole (pages : List Page) (page : Page) : Prop :=
  ∀ other ∈ pages, other.id = page.id →
    other.pid = page.pid ∧ other.sent = page.sent ∧ other.flying = page.flying

/- What an event does to the pages: the page goes on by moves, or is cut off from
its request, or it ends; the other pages stay, or end with their processes. -/
inductive PageEffect (config : Config) (before : List Page) (count : Nat) (page : Page) : Pages × List RefreshOutput → Prop where
  | goes {s' out} {page' : Page} {left : List Page} (alive : page.job.request = true) (opened : s'.opened = count)
      (id : page'.id = page.id) (conf : page'.job.conf = page.job.conf) (sub : left.Sublist before)
      (pages : s'.pages = left.map fun other => if other.id == page.id then page' else other)
      (moves : Trace (Move config page.job.conf page.id) page.progress out page'.progress) :
      PageEffect config before count page (s',out)
  | cut {s'} {page' : Page} {left : List Page} (opened : s'.opened = count) (id : page'.id = page.id) (sub : left.Sublist before)
      (pages : s'.pages = left.map fun other => if other.id == page.id then page' else other)
      (request : page'.job.request = false) : PageEffect config before count page (s',[])
  | ends {s' out} {left : List Page} (opened : s'.opened = count) (sub : left.Sublist before)
      (pages : s'.pages = left.filter fun other => other.id != page.id)
      (said : out = [] ∨ ∃ reply, out = [.replied page.id reply]) : PageEffect config before count page (s',out)

theorem effectWithin {config : Config} {left before : List Page} {count : Nat} {page : Page}
    {r : Pages × List RefreshOutput} (within : left.Sublist before) (effect : PageEffect config left count page r) :
    PageEffect config before count page r := by
  cases effect with
  | goes alive opened id conf sub pages moves => exact .goes alive opened id conf (sub.trans within) pages moves
  | cut opened id sub pages request => exact .cut opened id (sub.trans within) pages request
  | ends opened sub pages said => exact .ends opened (sub.trans within) pages said

section effects
variable {config : Config} {p : Process} {page : Page} {a : StepAnswer} {s : Pages} (sole : Sole s.pages page)
  (alive : page.job.request = true)
include sole alive

omit sole alive in
theorem reviseSole {page' : Page} {f : Page → Page} (same : ∀ other ∈ s.pages, other.id = page.id →
    f other = page') : (s.revise page.id f).pages =
      s.pages.map fun other => if other.id == page.id then page' else other := by
  refine List.map_congr_left fun other member => ?_
  split
  · rename_i mine
    exact same other member (by simpa using mine)
  · rfl

theorem setJobGoes {job : RefreshJob} {out : List RefreshOutput} (conf : job.conf = page.job.conf)
    (moves : Trace (Move config page.job.conf page.id) page.progress out
      (job.progress page.sent page.flying)) :
    PageEffect config s.pages s.opened page (s.setJob page.id job,out) := by
  refine @PageEffect.goes config _ _ page _ _ {page with job := job} s.pages alive rfl rfl conf (.refl _) ?_ moves
  refine reviseSole fun other member mine => ?_
  obtain ⟨pid,sent,flying⟩ := sole other member mine
  simp [← mine,← pid,← sent,← flying]

structure Ahead (config : Config) (page : Page) (job : RefreshJob) : Prop where
  conf : job.conf = page.job.conf
  moves : Trace (Move config page.job.conf page.id) page.progress [] (job.progress page.sent page.flying)

omit sole alive in
theorem aheadSame {job job' : RefreshJob} (ahead : Ahead config page job)
    (conf : job'.conf = job.conf)
    (same : job'.progress page.sent page.flying = job.progress page.sent page.flying) :
    Ahead config page job' :=
  ⟨conf.trans ahead.conf,same ▸ ahead.moves⟩

theorem aheadEffect {job job' : RefreshJob} {out : List RefreshOutput} (ahead : Ahead config page job)
    (conf : job'.conf = job.conf)
    (move : Move config page.job.conf page.id (job.progress page.sent page.flying) out
      (job'.progress page.sent page.flying)) :
    PageEffect config s.pages s.opened page (s.setJob page.id job',out) :=
  setJobGoes sole alive (conf.trans ahead.conf) (Trace.trans ahead.moves (Trace.once move))

theorem aheadStays {job job' : RefreshJob} (ahead : Ahead config page job)
    (conf : job'.conf = job.conf)
    (same : job'.progress page.sent page.flying = job.progress page.sent page.flying) :
    PageEffect config s.pages s.opened page (s.setJob page.id job',[]) :=
  aheadEffect sole alive ahead conf (by rw [same]; exact .rest)

omit sole alive in
theorem advanceProgress {job : RefreshJob} {found : Found} {result : RefreshResult} :
    ((job.result result).advance found).progress page.sent page.flying =
      {job.progress page.sent page.flying with
        entries := job.entries.modify job.position fun entry => {entry with result := result}
        position := job.position + 1} := by
  have entries : ((job.result result).advance found).entries =
      job.entries.modify job.position fun entry => {entry with result := result} := recordEntries _
  have scanned : ((job.result result).advance found).scanned = job.scanned := recordScanned _
  unfold RefreshJob.progress
  rw [entries,scanned]
  rfl

omit sole alive in
theorem rowFinal {job : RefreshJob} {entry : RefreshEntry} (here : job.entries[job.position]? = some entry)
    {result : RefreshResult} (final : result ≠ .pending) :
    (∀ i < job.position, (job.entries.modify job.position
      fun entry => {entry with result := result})[i]? = job.entries[i]?) ∧
    ∃ entry, (job.entries.modify job.position
      fun entry => {entry with result := result})[job.position]? = some entry ∧ entry.result ≠ .pending :=
  ⟨fun _ before => List.getElem?_modify_ne _ _ (Nat.ne_of_gt before),
    {entry with result := result},by simp [here],final⟩

omit sole alive in
theorem replyEffect {job : RefreshJob} : PageEffect config s.pages s.opened page (replyStep page a job s) :=
  .ends rfl (.refl _) rfl (.inr ⟨_,rfl⟩)

theorem probeEffect {job : RefreshJob} {entry : RefreshEntry} (ahead : Ahead config page job)
    (idle : job.active = false) (undecided : job.decision = false) (scanned : job.scanned = true)
    (here : job.entries[job.position]? = some entry) :
    PageEffect config s.pages s.opened page (probeStep config p page a job entry.found s) := by
  have spec := @refreshProbeSpec (config.names job.conf.ns) p.slot (s.system.alive a.claims) a.probe
    (s.system.zones job.conf.ns) entry.found job s.system.queue
  unfold probeStep
  dsimp only
  generalize refreshProbe (config.names job.conf.ns) p.slot (s.system.alive a.claims) a.probe
    (s.system.zones job.conf.ns) entry.found job s.system.queue = outcome at spec
  cases spec with
  | @declined result uri etag modified job' q final same =>
    obtain ⟨earlier,last⟩ := rowFinal here final
    subst same
    simp only [reduceCtorEq,if_false]
    refine aheadEffect (s := s.setQueue q) sole alive ahead rfl ?_
    rw [advanceProgress]
    exact .pass idle undecided scanned (.inl rfl) earlier last
  | @again uri etag modified job' q same =>
    subst same
    exact aheadStays (s := s.setQueue q) sole alive ahead rfl rfl
  | @failed uri etag modified job' q same =>
    have final : RefreshResult.error ≠ .pending := by decide
    obtain ⟨earlier,last⟩ := rowFinal here final
    subst same
    simp only [reduceCtorEq,if_false,if_true]
    refine aheadEffect (s := s.setQueue q) sole alive ahead rfl ?_
    rw [advanceProgress]
    exact .pass idle undecided scanned (.inr rfl) earlier last
  | @sent uri etag modified job' q mapped same =>
    subst same
    simp only [if_true]
    refine @PageEffect.goes config _ _ page _ _ (page.dispatch (RefreshJob.wait
      {job with uri := uri, etag := etag, modified := modified, credit := true, active := true})) _
      alive rfl rfl ahead.conf (.refl _) ?_ ?_
    · refine reviseSole fun other member mine => ?_
      obtain ⟨pid,sent,flying⟩ := sole other member mine
      simp [Page.dispatch,← mine,← pid,← sent,← flying]
    · refine Trace.trans ahead.moves (Trace.once ?_)
      rw [ahead.conf] at mapped
      exact .dispatch idle undecided scanned here mapped

theorem entryEffect {job : RefreshJob} {entry : RefreshEntry} (ahead : Ahead config page job)
    (idle : job.active = false) (scanned : job.scanned = true)
    (here : job.entries[job.position]? = some entry) :
    PageEffect config s.pages s.opened page (entryStep config p page a job entry s) := by
  unfold entryStep
  split
  · rename_i decided
    obtain ⟨⟨sub,opened⟩,said⟩ := @refreshInvalidateSpec config p page a job entry.found s
    dsimp only
    generalize refreshInvalidate config p page a job entry.found s = outcome at sub opened said
    obtain ⟨rc,left,out⟩ := outcome
    dsimp only at sub opened said ⊢
    rw [ahead.conf] at said
    have sole : Sole left.pages page := fun other member => sole other (sub.mem member)
    rw [← opened]
    apply effectWithin sub
    split
    · refine aheadEffect (s := left) sole alive ahead rfl ?_
      rcases said with rfl | ⟨zone,current,rfl⟩
      · exact .rest
      · exact .again decided here current
    · have final : decisionResult rc ≠ .pending := by
        unfold decisionResult
        split
        · simp
        · split <;> simp
      obtain ⟨earlier,last⟩ := rowFinal here final
      have moved := @advanceProgress page {job with decision := false} entry.found (decisionResult rc)
      refine aheadEffect (s := left) sole alive ahead rfl ?_
      have shown : out = [] ∨ ∃ zone rc, KeyCurrent config page.job.conf entry.found zone rc ∧
          out = [.enqueued page.id job.position page.job.conf entry.found zone rc] :=
        said.imp_right fun ⟨zone,current,same⟩ => ⟨zone,rc,current,same⟩
      have judged := @Move.judge config page.job.conf page.id (job.progress page.sent page.flying) _ _ _
        decided here shown earlier last
      exact moved ▸ judged
  · rename_i undecided
    have undecided : job.decision = false := by simpa using undecided
    split
    · exact probeEffect sole alive ahead idle undecided scanned here
    · rename_i final
      refine aheadEffect sole alive ahead rfl ?_
      exact .pass idle undecided scanned (.inl rfl) (fun _ _ => rfl) ⟨entry,here,final⟩

theorem scannedEffect {job : RefreshJob} {scan : RefreshScan} (ahead : Ahead config page job)
    (idle : job.active = false) (same : job.scan = some scan) :
    PageEffect config s.pages s.opened page (scannedStep config p page a job scan s) := by
  have entries : job.entries = scan.entries := by simp [RefreshJob.entries,same]
  unfold scannedStep
  split
  · exact replyEffect
  · rename_i complete
    have scanned : job.scanned = true := by simpa [RefreshJob.scanned,same] using complete
    split
    · exact replyEffect
    · rename_i entry here
      exact entryEffect sole alive ahead idle scanned (entries ▸ here)

theorem scanEffect {job : RefreshJob} {scan : RefreshScan} (ahead : Ahead config page job)
    (idle : job.active = false) (quiet : job.task ≠ .posted) (same : job.scan = some scan) :
    PageEffect config s.pages s.opened page (scanStep config p page a job scan s) := by
  unfold scanStep
  split
  · exact scannedEffect sole alive ahead idle same
  · rename_i open_
    have unscanned : job.scanned = false := by
      simp only [Bool.or_eq_true,not_or,Bool.not_eq_true] at open_
      simp [RefreshJob.scanned,same,open_.1.1]
    split
    · refine aheadEffect sole alive ahead rfl ?_
      cases a.posted with
      | true => exact .scan unscanned fun _ => ⟨unscanned,rfl⟩
      | false => exact .scan unscanned fun posted => by cases posted
    · dsimp only
      have sliced : Ahead config page {job with scan := some (refreshScan a.now job.deadline a.scan scan).2} :=
        ⟨ahead.conf,Trace.trans ahead.moves (Trace.once
          (.scan unscanned fun posted => absurd (by simpa using posted) quiet))⟩
      split
      · exact aheadStays sole alive sliced rfl rfl
      · exact scannedEffect sole alive sliced idle rfl

theorem stepEffect (quiet : page.job.task = .posted → page.job.scanning = true) :
    PageEffect config s.pages s.opened page (refreshStep config p page a s) := by
  obtain ⟨conf,task,scanning⟩ := @expireKeeps page.job a.now p.leaving
  have ahead : Ahead config page (page.job.expire a.now p.leaving) := by
    refine ⟨conf,?_⟩
    rw [expireProgress]
    exact .done
  unfold refreshStep
  dsimp only
  rw [if_neg (by simp [alive])]
  split
  · exact aheadStays sole alive ahead rfl rfl
  rename_i free
  simp only [Bool.or_eq_true,not_or,Bool.not_eq_true,scanning] at free
  have quiet : (page.job.expire a.now p.leaving).task ≠ .posted := by
    intro posted
    have busy := quiet (task ▸ posted)
    simp [busy] at free
  split
  · exact replyEffect
  split
  · exact aheadStays sole alive ahead rfl rfl
  split
  · rename_i scan same
    exact scanEffect sole alive ahead free.2 quiet same
  · rename_i absent
    split
    · exact .ends rfl (.refl _) rfl (.inr ⟨_,rfl⟩)
    · rename_i job prepared
      obtain ⟨threaded,rfl⟩ := preparedFresh prepared
      dsimp only
      refine @scanEffect config p page a
        {s with current := Function.update s.current page.pid (some page.id)} sole alive _ _ ?_ ?_ ?_ ?_
      · refine aheadSame ahead rfl ?_
        simp [RefreshJob.progress,RefreshJob.entries,RefreshJob.scanned,absent]
      · exact free.2
      · exact quiet
      · rfl

omit sole alive in
theorem cutEffect {page' : Page} {f : Page → Page} (id : page'.id = page.id)
    (same : ∀ other ∈ s.pages, other.id = page.id → f other = page') (request : page'.job.request = false) :
    PageEffect config s.pages s.opened page (s.revise page.id f,[]) :=
  .cut rfl id (.refl _) (reviseSole same) request

omit sole alive in
theorem effectAfter {page' : Page} {r : Pages × List RefreshOutput} (id : page'.id = page.id)
    (conf : page'.job.conf = page.job.conf) (alive : page.job.request = true)
    (moves : Trace (Move config page.job.conf page.id) page.progress [] page'.progress)
    (effect : PageEffect config s.pages s.opened page' r) : PageEffect config s.pages s.opened page r := by
  cases effect with
  | goes _ opened id' conf' sub pages moves' =>
    rw [id] at pages
    rw [conf,id] at moves'
    exact .goes alive opened (id'.trans id) (conf'.trans conf) sub pages (Trace.trans moves moves')
  | cut opened id' sub pages gone => exact .cut opened (id'.trans id) sub (id ▸ pages) gone
  | ends opened sub pages said => exact .ends opened sub (id ▸ pages) (id ▸ said)

omit sole alive in
theorem resultProgress {job : RefreshJob} {sent : Nat} {flying : List Nat} {result : RefreshResult} :
    (job.result result).progress sent flying = {job.progress sent flying with
      entries := job.entries.modify job.position fun entry => {entry with result := result}} := by
  have entries : (job.result result).entries =
      job.entries.modify job.position fun entry => {entry with result := result} := recordEntries _
  have scanned : (job.result result).scanned = job.scanned := recordScanned _
  unfold RefreshJob.progress
  rw [entries,scanned]
  rfl

end effects

section completion
variable {job : RefreshJob} {status : Nat}

theorem settleConf : (job.settle status).conf = job.conf := by
  unfold RefreshJob.settle
  split
  · rfl
  split
  · rfl
  split <;> rfl

theorem settleProgress (undecided : job.decision = false) {entry : RefreshEntry}
    (here : job.entries[job.position]? = some entry) (sent : Nat) (flying : List Nat) :
    ∃ entries decision, (job.settle status).progress sent flying =
        {job.progress sent flying with entries := entries, decision := decision} ∧
      (∀ i < job.position, entries[i]? = job.entries[i]?) ∧
      (decision = true → entry.result ≠ .profile ∧ (status = 200 ∨ status = 404 ∨ status = 410) ∧
        ∃ entry', entries[job.position]? = some entry' ∧ entry'.found = entry.found) := by
  have row (result : RefreshResult) : ∃ entries decision, (job.result result).progress sent flying =
        {job.progress sent flying with entries := entries, decision := decision} ∧
      (∀ i < job.position, entries[i]? = job.entries[i]?) ∧
      (decision = true → entry.result ≠ .profile ∧ (status = 200 ∨ status = 404 ∨ status = 410) ∧
        ∃ entry', entries[job.position]? = some entry' ∧ entry'.found = entry.found) :=
    ⟨_,job.decision,resultProgress,fun _ before => List.getElem?_modify_ne _ _ (Nat.ne_of_gt before),
      by simp [undecided]⟩
  unfold RefreshJob.settle
  rw [entryAt,here]
  split
  · exact ⟨job.entries,job.decision,rfl,fun _ _ => rfl,by simp [undecided]⟩
  rename_i allowed
  split
  · exact row .kept
  split
  · rename_i calls
    have calls : status = 200 ∨ status = 404 ∨ status = 410 := by simpa [or_assoc] using calls
    exact ⟨job.entries,true,rfl,fun _ _ => rfl,fun _ => ⟨by simpa using allowed,calls,entry,here,rfl⟩⟩
  · exact row _

end completion

section events
variable {config : Config} {p : Process} {page : Page} {s : Pages} {past : List RefreshOutput}

theorem completeEffect (sole : Sole s.pages page) (alive : page.job.request = true)
    (live : Live config page.job.conf page.id past page.progress) {probe : Nat} (status : Nat)
    (last : probe + 1 = page.sent) :
    PageEffect config s.pages s.opened page (completeStep p page probe status s) := by
  have pages (job : RefreshJob) : (s.revise page.id (Page.finish probe job)).pages =
      s.pages.map fun other => if other.id == page.id then page.finish probe job else other := by
    refine reviseSole fun other member mine => ?_
    obtain ⟨pid,sent,flying⟩ := sole other member mine
    simp [Page.finish,← mine,← pid,← sent,← flying]
  have flight : page.flying = if page.job.active then [page.sent - 1] else [] := live.flight
  unfold completeStep refreshDone
  cases active : page.job.active with
  | false =>
    have empty : page.flying = [] := by simpa [active] using flight
    simp only [Bool.not_false,if_true,empty,List.not_mem_nil,if_false]
    refine @PageEffect.goes config _ _ page _ _ (page.finish probe page.job) _ alive rfl rfl
      rfl (.refl _) (pages page.job) ?_
    have same : (page.finish probe page.job).progress = page.progress := by
      simp [Page.finish,Page.progress,empty]
    rw [same]
    exact .done
  | true =>
    obtain ⟨undecided,entry,here,_⟩ := live.probing active
    have flying : page.flying = [page.sent - 1] := by simpa [active] using flight
    have flies : probe ∈ page.flying := by simp [flying,← last]
    simp only [Bool.not_true,Bool.false_eq_true,if_false,if_pos flies,releaseCreditJob]
    let job := RefreshJob.record (fun entry => {entry with status := status})
      {page.job with active := false, credit := false}
    have entries : job.entries = page.job.entries.modify page.job.position
        fun entry => {entry with status := status} := recordEntries _
    have scanned : job.scanned = page.job.scanned := recordScanned _
    have there : job.entries[job.position]? = some {entry with status := status} := by
      have here : page.job.entries[page.job.position]? = some entry := here
      rw [entries]
      change (page.job.entries.modify page.job.position _)[page.job.position]? = _
      simp [here]
    obtain ⟨entries',decision,settled,earlier,decided⟩ := @settleProgress job status undecided
      {entry with status := status} there page.sent (page.flying.erase probe)
    refine @PageEffect.goes config _ _ page _ _ (page.finish probe (job.settle status).wait) _ alive rfl rfl
      ?_ (.refl _) (pages _) (Trace.once ?_)
    · exact @settleConf job status
    · change Move _ _ _ _ _ ((job.settle status).progress page.sent (page.flying.erase probe))
      have base : job.progress page.sent (page.flying.erase probe) = {page.progress with
          entries := job.entries
          active := false
          credit := false
          flying := page.flying.erase probe} := by
        unfold RefreshJob.progress
        rw [scanned]
        rfl
      rw [settled,base]
      refine .settle flies active (fun i before => ?_) here decided
      rw [earlier i before,entries]
      exact List.getElem?_modify_ne _ _ (Nat.ne_of_gt before)

theorem jobGone {job : RefreshJob} (gone : job.request = false) (sole : Sole s.pages page) :
    PageEffect config s.pages s.opened page (s.setJob page.id job,[]) := by
  refine @cutEffect config page s {page with job := job} _ rfl (fun other member mine => ?_) gone
  obtain ⟨pid,sent,flying⟩ := sole other member mine
  simp [← mine,← pid,← sent,← flying]

theorem scanAgain {now deadline : UInt64} {answer : ScanAnswer} {scan : RefreshScan}
    (again : (refreshScan now deadline answer scan).1 = .again) :
    (refreshScan now deadline answer scan).2.complete = scan.complete := by
  unfold refreshScan at again ⊢
  split at again
  · contradiction
  · rename_i running
    rw [if_neg running]
    dsimp only at again ⊢
    split at again
    · rename_i slice
      rw [if_pos slice]
    · rename_i finished
      exact absurd again finished

theorem scanRows (now deadline : UInt64) (answer : ScanAnswer) (scan : RefreshScan) :
    (refreshScan now deadline answer scan).2.entries = scan.entries ∨
    ∀ row ∈ (refreshScan now deadline answer scan).2.entries, row.status = 0 ∧ row.result = .pending := by
  have blank {row : RefreshEntry} (member : row ∈ answer.entries.map fun found => (⟨found,0,.pending⟩ : RefreshEntry)) :
      row.status = 0 ∧ row.result = .pending := by
    obtain ⟨found,_,same⟩ := List.mem_map.mp member
    rw [← same]
    exact ⟨rfl,rfl⟩
  unfold refreshScan
  split
  · exact .inl rfl
  · right
    dsimp only
    split
    · exact fun row member => blank member
    · dsimp only
      split
      · exact fun row member => blank ((List.perm_insertionSort _ _).mem_iff.mp member)
      · exact fun row member => blank member

theorem sliceEffect (sole : Sole s.pages page)
    (live : page.job.request = true → Live config page.job.conf page.id past page.progress)
    (now : UInt64) (answer : ScanAnswer) {scan : RefreshScan} (posted : page.job.task = .posted)
    (same : page.job.scan = some scan) :
    PageEffect config s.pages s.opened page (s.setJob page.id {page.job with
      scan := some (refreshScan now page.job.deadline answer scan).2
      task := if (refreshScan now page.job.deadline answer scan).1 = .again then .posted else .ran},[]) := by
  cases request : page.job.request with
  | false => exact jobGone request sole
  | true =>
    have running : page.progress.posted = true := by simp [Page.progress,RefreshJob.progress,posted]
    obtain ⟨unscanned,scanning⟩ := (live request).posted running
    refine setJobGoes sole request rfl (Trace.once ?_)
    refine .scan unscanned fun still => ⟨?_,scanning⟩
    rcases eq_or_ne (refreshScan now page.job.deadline answer scan).1 .again with again | finished
    · have open_ : scan.complete = false := by simpa [Page.progress,RefreshJob.progress,RefreshJob.scanned,same] using unscanned
      simp [RefreshJob.scanned,scanAgain again,open_]
    · simp [finished] at still

section page
variable (only : ∀ other ∈ s.pages, other.id = page.id → other = page)
  (live : page.job.request = true → Live config page.job.conf page.id past page.progress)
include only

theorem onlySole : Sole s.pages page := by
  intro other inside same
  rw [only other inside same]
  exact ⟨rfl,rfl,rfl⟩

theorem staysEffect : PageEffect config s.pages s.opened page (s,[]) := by
  have same : s.pages = s.pages.map fun other => if other.id == page.id then page else other := by
    conv_lhs => rw [← List.map_id s.pages]
    refine List.map_congr_left fun other inside => ?_
    split
    · rename_i mine
      exact only other inside (by simpa using mine)
    · rfl
  rcases Bool.eq_false_or_eq_true page.job.request with alive | gone
  · exact @PageEffect.goes config _ _ page _ _ page _ alive rfl rfl rfl (.refl _) same .done
  · exact @PageEffect.cut config _ _ page _ page _ rfl rfl (.refl _) same gone

theorem cutEnds {job : RefreshJob} (kept : (refreshCleanup p.slot page.job s.system.queue).1 = some job) :
    PageEffect config s.pages s.opened page
      ((s.setQueue (refreshCleanup p.slot page.job s.system.queue).2).revise page.id (Page.cut job),[]) := by
  have gone : job.request = false := cleanupLeaves kept
  refine @cutEffect config page (s.setQueue (refreshCleanup p.slot page.job s.system.queue).2)
    (page.cut job) _ rfl (fun other inside mine => ?_) gone
  rw [only other inside mine]

theorem toldEffect (a : StepAnswer) (ran : page.job.task = .ran) (alive : page.job.request = true) :
    PageEffect config s.pages s.opened page
      (refreshStep config p {page with job := {page.job with scanning := false, task := .idle, timer := false}} a s) := by
  let told : Page := {page with job := {page.job with scanning := false, task := .idle, timer := false}}
  have sole : Sole s.pages page := onlySole only
  have effect := @stepEffect config p told a s sole alive (by simp [told])
  refine @effectAfter config page s told _ rfl rfl alive (Trace.once ?_) effect
  have finished : page.progress.posted = false := by simp [Page.progress,RefreshJob.progress,ran]
  have same : told.progress = {page.progress with scanning := false} := by
    simp [told,Page.progress,RefreshJob.progress,ran,RefreshJob.entries,RefreshJob.scanned]
  rw [same]
  exact .notify finished

include live

theorem timerEffect (a : StepAnswer) : PageEffect config s.pages s.opened page
    (refreshStep config p {page with job := {page.job with timer := false}} a s) := by
  have quiet (alive : page.job.request = true) (posted : page.job.task = .posted) :
      page.job.scanning = true :=
    ((live alive).posted (by simp [Page.progress,RefreshJob.progress,posted])).2
  let ticked : Page := {page with job := {page.job with timer := false}}
  rcases Bool.eq_false_or_eq_true page.job.request with alive | gone
  · have sole : Sole s.pages page := onlySole only
    have effect := @stepEffect config p ticked a s sole alive (quiet alive)
    exact @effectAfter config page s ticked _ rfl rfl alive .done effect
  · have finished : (!ticked.job.request) = true := by simp [ticked,gone]
    unfold refreshStep
    rw [if_pos finished]
    exact @jobGone config page s ticked.job gone (onlySole only)

theorem pageEffect (e : RefreshEvent) :
    PageEffect config s.pages s.opened page (pageStep config false p page s e) := by
  have turn := pageCases config false p page s e
  generalize pageStep config false p page s e = out at turn ⊢
  cases turn with
  | idle => exact staysEffect only
  | @timer _ a => exact timerEffect only live a
  | @slice _ now answer scan posted open_ => exact sliceEffect (onlySole only) live now answer posted open_
  | closed gone => exact .ends rfl (.refl _) rfl (.inl rfl)
  | @told _ a ran alive => exact toldEffect only a ran alive
  | rejected alive flying =>
    refine setJobGoes (onlySole only) alive rfl (Trace.once ?_)
    rw [refreshReject,resultProgress]
    exact .reject flying
  | @completed _ probe status called =>
    obtain ⟨alive,last⟩ := calledLast called
    exact completeEffect (onlySole only) alive (live alive) status last
  | left_ => exact .ends rfl (.refl _) rfl (.inl rfl)
  | cut kept => exact cutEnds only kept

end page
end events

section traces
variable {config : Config} {conf : RefreshConf} {id : Nat} {past out : List RefreshOutput} {g g' : Progress}

theorem traceLive (live : Live config conf id past g) (trace : Trace (Move config conf id) g out g') :
    Live config conf id (past ++ out) g' :=
  Trace.keeps (fun _ _ _ _ live move => moveLive live move) trace past live

theorem traceJustified (live : Live config conf id past g) (trace : Trace (Move config conf id) g out g') :
    Witnessed (Justified config) past out :=
  Trace.witnessed (fun _ _ _ _ live move => moveLive live move)
    (fun _ _ _ _ live move => moveJustified live move) trace past live

theorem traceOwn (trace : Trace (Move config conf id) g out g') : ∀ o ∈ out, o.page = id := by
  refine Trace.keeps (P := fun past _ => ∀ o ∈ past, o.page = id) (fun past _ out _ own move o member => ?_)
    trace [] (by simp)
  rcases List.mem_append.mp member with earlier | now
  · exact own o earlier
  · exact moveOwn move o now

end traces

structure Pages.Sound (config : Config) (past : List RefreshOutput) (s : Pages) : Prop where
  ids : (s.pages.map Page.id).Nodup
  count : ∀ page ∈ s.pages, page.id < s.opened
  heard : ∀ id probe, .rejected id probe ∈ past → id < s.opened
  live : ∀ page ∈ s.pages, page.job.request = true → Live config page.job.conf page.id past page.progress

section runs
variable {config : Config} {past : List RefreshOutput} {s : Pages}

theorem freshLive (conf : RefreshConf) {id : Nat} (pid : Pid) (deadline : UInt64) (after : Bytes)
    (unheard : ∀ probe, .rejected id probe ∉ past) :
    Live config conf id past (Page.mk id pid (.fresh conf deadline after) 0 []).progress := by
  refine ⟨fun probe member => absurd member (unheard probe),?_,rfl,?_,rfl,?_,?_,?_,?_⟩ <;>
    simp [Page.progress,RefreshJob.progress,RefreshJob.fresh]

section sound
variable (sound : s.Sound config past) {page : Page} (member : page ∈ s.pages)
  {out : List RefreshOutput} (own : ∀ o ∈ out, o.page = page.id)
include sound own

theorem heardGrows (member : page ∈ s.pages) :
    ∀ id probe, .rejected id probe ∈ past ++ out → id < s.opened := by
  intro id probe inside
  rcases List.mem_append.mp inside with earlier | now
  · exact sound.heard id probe earlier
  · have mine : id = page.id := own _ now
    exact mine ▸ sound.count page member

theorem othersLive {other : Page} (present : other ∈ s.pages) (apart : other.id ≠ page.id)
    (alive : other.job.request = true) :
    Live config other.job.conf other.id (past ++ out) other.progress := by
  refine liveGrows (sound.live other present alive) fun probe inside => ?_
  have mine : other.id = page.id := own _ inside
  exact apart mine

include member

theorem replacedSound {page' : Page} (id : page'.id = page.id)
    (live : page'.job.request = true → Live config page'.job.conf page'.id (past ++ out) page'.progress)
    {s' : Pages} (opened : s'.opened = s.opened) {left : List Page} (sub : left.Sublist s.pages)
    (pages : s'.pages = left.map fun other => if other.id == page.id then page' else other) :
    s'.Sound config (past ++ out) := by
  have source {other : Page} (inside : other ∈ s'.pages) :
      other = page' ∨ (other ∈ s.pages ∧ other.id ≠ page.id) := by
    rw [pages] at inside
    obtain ⟨old,present,same⟩ := List.mem_map.mp inside
    split at same
    · exact .inl same.symm
    · rename_i apart
      subst same
      exact .inr ⟨sub.mem present,by simpa using apart⟩
  have ids : s'.pages.map Page.id = left.map Page.id := by
    rw [pages,List.map_map]
    refine List.map_congr_left fun other _ => ?_
    dsimp only [Function.comp]
    split
    · rename_i mine
      rw [id]
      exact (by simpa using mine : other.id = page.id).symm
    · rfl
  refine ⟨ids ▸ (sub.map Page.id).nodup sound.ids,fun other inside => ?_,
    by rw [opened]; exact heardGrows sound own member,fun other inside alive => ?_⟩
  · rw [opened]
    rcases source inside with rfl | ⟨present,_⟩
    · exact id ▸ sound.count page member
    · exact sound.count other present
  · rcases source inside with rfl | ⟨present,apart⟩
    · exact live alive
    · exact othersLive sound own present apart alive

theorem endedSound {s' : Pages} (opened : s'.opened = s.opened) {left : List Page} (sub : left.Sublist s.pages)
    (pages : s'.pages = left.filter fun other => other.id != page.id) : s'.Sound config (past ++ out) := by
  have source {other : Page} (stays : other ∈ s'.pages) : other ∈ s.pages ∧ other.id ≠ page.id := by
    rw [pages] at stays
    obtain ⟨there,apart⟩ := List.mem_filter.mp stays
    exact ⟨sub.mem there,by simpa using apart⟩
  refine ⟨?_,fun other left => ?_,by rw [opened]; exact heardGrows sound own member,fun other left alive => ?_⟩
  · rw [pages]
    exact ((List.filter_sublist.trans sub).map Page.id).nodup sound.ids
  · rw [opened]
    exact sound.count other (source left).1
  · exact othersLive sound own (source left).1 (source left).2 alive

end sound

theorem effectSound (sound : s.Sound config past) {page : Page} (member : page ∈ s.pages)
    {r : Pages × List RefreshOutput} (effect : PageEffect config s.pages s.opened page r) :
    r.1.Sound config (past ++ r.2) ∧ Witnessed (Justified config) past r.2 := by
  cases effect with
  | goes alive opened id conf sub pages moves =>
    have live := sound.live page member alive
    refine ⟨replacedSound sound member (traceOwn moves) id (fun _ => ?_) opened sub pages,traceJustified live moves⟩
    rw [conf,id]
    exact traceLive live moves
  | cut opened id sub pages gone =>
    exact ⟨replacedSound sound member (by simp) id (fun alive => by simp [gone] at alive) opened sub pages,
      witnessedNil past⟩
  | @ends s' out left opened sub pages said =>
    have own : ∀ o ∈ out, o.page = page.id := by
      rcases said with rfl | ⟨reply,rfl⟩ <;> simp [RefreshOutput.page]
    have justified : Witnessed (Justified config) past out := by
      rcases said with rfl | ⟨reply,rfl⟩
      · exact witnessedNil past
      · exact witnessedSingle trivial
    exact ⟨endedSound sound member own opened sub pages,justified⟩

theorem stepSound (sound : s.Sound config past) (e : RefreshEvent) :
    (s.step config false e).1.Sound config (past ++ (s.step config false e).2) ∧
      Witnessed (Justified config) past (s.step config false e).2 := by
  have turn := pagesCases config false s e
  generalize s.step config false e = out at turn ⊢
  cases turn with
  | idle =>
    rw [List.append_nil]
    exact ⟨sound,witnessedNil past⟩
  | @worked e =>
    have sub : (s.pages.filter fun page => (s.system.step config e).1.procs.any
        fun p => p.pid == page.pid).Sublist s.pages := List.filter_sublist
    refine ⟨?_,witnessedNil past⟩
    rw [List.append_nil]
    exact ⟨(sub.map Page.id).nodup sound.ids,fun page left => sound.count page (sub.mem left),sound.heard,
      fun page left => sound.live page (sub.mem left)⟩
  | @started pid conf deadline after p running mine =>
    refine ⟨?_,witnessedNil past⟩
    rw [List.append_nil]
    refine ⟨?_,fun page inside => ?_,fun id probe member => Nat.lt_succ_of_lt (sound.heard id probe member),
      fun page inside alive => ?_⟩
    · simp only [startPage,List.map_append,List.map_cons,List.map_nil]
      refine List.nodup_append.mpr ⟨sound.ids,by simp,fun id present other new same => ?_⟩
      obtain ⟨page,member,rfl⟩ := List.mem_map.mp present
      rw [List.mem_singleton.mp new] at same
      exact absurd (sound.count page member) (by simp [same])
    · rcases List.mem_append.mp inside with present | new
      · exact Nat.lt_succ_of_lt (sound.count page present)
      · rw [List.mem_singleton.mp new]
        exact Nat.lt_succ_self _
    · rcases List.mem_append.mp inside with present | new
      · exact sound.live page present alive
      · rw [List.mem_singleton.mp new]
        exact freshLive conf pid deadline after fun probe member =>
          absurd (sound.heard _ probe member) (lt_irrefl _)
  | visited member called running mine present =>
    refine effectSound sound member (pageEffect (fun other there same => ?_) (sound.live _ member) e)
    exact List.inj_on_of_nodup_map sound.ids there member same

end runs

/- REFRESH invalidates on evidence only: an enqueue comes after the completion of
the probe that was sent for its entry, and the state of a page tells which of its
probes is in flight. -/
theorem refreshNeedsEvidence (config : Config) (maxSize : Nat) (paths : List (Nat × Bytes))
    (epochs : Nat → Epoch) (events : List RefreshEvent) :
    let s := (refreshMachine config false).after (refreshInit maxSize paths epochs) events
    let history := (refreshMachine config false).outputs (refreshInit maxSize paths epochs) events
    (∀ front back id position conf found zone rc,
      history = front ++ .enqueued id position conf found zone rc :: back →
      (∃ probe status, [.dispatched id probe position found,.completed id probe status].Sublist front ∧
        (status = 200 ∨ status = 404 ∨ status = 410) ∧ .rejected id probe ∉ front) ∧
      found.header.varyLen = 0 ∧
      (∃ d, generationDecode (config.names conf.ns) found.key = some d ∧ conf.refreshPrefix <+: d.logical ∧
        uriMapped (d.logical.drop conf.refreshPrefix.length) = true) ∧
      etagMapped (found.header.etag.take found.header.etagLen) = true ∧
      (rc = .ok → (generationCurrent (config.names conf.ns) zone found.key).1 = .ok)) ∧
    ∀ page ∈ s.pages, page.job.request = true →
      (∀ i < page.job.position, ∃ entry, page.job.entries[i]? = some entry ∧ entry.result ≠ .pending) ∧
      page.flying.length ≤ 1 ∧ (page.job.credit = true ↔ page.flying ≠ []) := by
  have start : (refreshInit maxSize paths epochs).Sound config [] :=
    ⟨by simp [refreshInit],by simp [refreshInit],by simp,by simp [refreshInit]⟩
  have step (past : List RefreshOutput) (s : Pages) (e : RefreshEvent) (sound : s.Sound config past) :=
    stepSound sound e
  intro s history
  have sound : s.Sound config history :=
    (refreshMachine config false).tracks start (fun past s e sound => (step past s e sound).1) events
  refine ⟨fun front back id position conf found zone rc split => ?_,fun page member alive => ?_⟩
  · obtain ⟨evidence,mapped,current⟩ := (refreshMachine config false).witnessed start step events
      front (.enqueued id position conf found zone rc) back split
    exact ⟨evidence,mapped.varyLen,mapped.uri,mapped.etag,current⟩
  · have live := sound.live page member alive
    have flight : page.flying = if page.job.active then [page.sent - 1] else [] := live.flight
    have credit : page.job.credit = page.job.active := live.credit
    refine ⟨live.passed,?_,?_⟩
    · rw [flight]
      split <;> simp
    · rw [flight,credit]
      split <;> simp_all

example :
    let found : Found := ⟨[48,97],generationEncode siteName siteEpoch 1 [47,97],⟨5,0,0,0,0,0,[],0,[]⟩⟩
    let a : StepAnswer := ⟨0,fun _ => true,⟨true,true,false,false,false⟩,false,⟨.ok,[found],false⟩,
      ⟨true,true,true⟩,[],⟨true,true,some 5,[some 8,some 9]⟩,true⟩
    let history := (refreshMachine ⟨posix,fun _ => siteName⟩ false).outputs
      (refreshInit 4 [(1,[47,99])] fun _ => siteEpoch) [.worker (.start 7 0 false [0]),
        .start 7 ⟨0,[],[47,99],[],[]⟩ 1000 [],.timer 0 a,.complete 0 0 404,.timer 0 a]
    (history.map fun o => match o with
      | .dispatched .. => 1 | .completed _ _ status => status | .enqueued _ _ _ _ _ .ok => 2 | _ => 0) =
        [1,404,2] := by decide +kernel

end CachePurge
