import CachePurge.General.Traces
import CachePurge.RefreshPages

/-! A page by its progress over the entries: what each callback can do to it is
one of a few moves, and the moves keep what ties a decision to the probe it
rests on. -/
namespace CachePurge
open General

structure Progress where
  entries : List RefreshEntry
  scanned : Bool
  posted : Bool
  scanning : Bool
  position : Nat
  active : Bool
  credit : Bool
  decision : Bool
  sent : Nat
  flying : List Nat

def RefreshJob.entries (job : RefreshJob) : List RefreshEntry := (job.scan.map RefreshScan.entries).getD []

def RefreshJob.scanned (job : RefreshJob) : Bool := job.scan.any RefreshScan.complete

def RefreshJob.progress (job : RefreshJob) (sent : Nat) (flying : List Nat) : Progress where
  entries := job.entries
  scanned := job.scanned
  posted := job.task == .posted
  scanning := job.scanning
  position := job.position
  active := job.active
  credit := job.credit
  decision := job.decision
  sent := sent
  flying := flying

def Page.progress (page : Page) : Progress := page.job.progress page.sent page.flying

structure Mapped (name : Name) (refreshPrefix : Bytes) (found : Found) : Prop where
  varyLen : found.header.varyLen = 0
  uri : ∃ d, generationDecode name found.key = some d ∧ refreshPrefix <+: d.logical ∧
    uriMapped (d.logical.drop refreshPrefix.length) = true
  etag : etagMapped (found.header.etag.take found.header.etagLen) = true

/- A probe for the entry has completed with a status that calls for invalidation,
and the guard has not refused it. -/
def Evidence (past : List RefreshOutput) (id position : Nat) (found : Found) : Prop :=
  ∃ probe status, [.dispatched id probe position found,.completed id probe status].Sublist past ∧
    (status = 200 ∨ status = 404 ∨ status = 410) ∧ .rejected id probe ∉ past

section moves
variable (config : Config) (conf : RefreshConf) (id : Nat)

def KeyCurrent (found : Found) (zone : Zone) (rc : Rc) : Prop :=
  rc = .ok → (generationCurrent (config.names conf.ns) zone found.key).1 = .ok

inductive Move (g : Progress) : List RefreshOutput → Progress → Prop where
  | rest : Move g [] g
  | scan {entries complete posted scanning} (unscanned : g.scanned = false)
      (apart : posted = true → complete = false ∧ scanning = true) : Move g [] {g with
        entries := entries, scanned := complete, posted := posted, scanning := scanning}
  | notify (idle : g.posted = false) : Move g [] {g with scanning := false}
  | dispatch {entry} (idle : g.active = false) (undecided : g.decision = false) (scanned : g.scanned = true)
      (here : g.entries[g.position]? = some entry)
      (mapped : Mapped (config.names conf.ns) conf.refreshPrefix entry.found) :
      Move g [.dispatched id g.sent g.position entry.found] {g with
        active := true, credit := true, sent := g.sent + 1, flying := g.sent :: g.flying}
  | reject {probe} (flies : probe ∈ g.flying) : Move g [.rejected id probe] {g with
      entries := g.entries.modify g.position fun entry => {entry with result := .profile}}
  | settle {probe status entries entry decision} (flies : probe ∈ g.flying) (active : g.active = true)
      (earlier : ∀ i < g.position, entries[i]? = g.entries[i]?)
      (here : g.entries[g.position]? = some entry)
      (decided : decision = true → entry.result ≠ .profile ∧
        (status = 200 ∨ status = 404 ∨ status = 410) ∧
        ∃ entry', entries[g.position]? = some entry' ∧ entry'.found = entry.found) :
      Move g [.completed id probe status] {g with
        entries := entries, active := false, credit := false, decision := decision
        flying := g.flying.erase probe}
  | again {entry zone rc} (decided : g.decision = true) (here : g.entries[g.position]? = some entry)
      (published : KeyCurrent config conf entry.found zone rc) :
      Move g [.enqueued id g.position conf entry.found zone rc] g
  | judge {entry entries out} (decided : g.decision = true) (here : g.entries[g.position]? = some entry)
      (said : out = [] ∨ ∃ zone rc, KeyCurrent config conf entry.found zone rc ∧
        out = [.enqueued id g.position conf entry.found zone rc])
      (earlier : ∀ i < g.position, entries[i]? = g.entries[i]?)
      (final : ∃ entry, entries[g.position]? = some entry ∧ entry.result ≠ .pending) :
      Move g out {g with entries := entries, decision := false, position := g.position + 1}
  | pass {entries credit} (idle : g.active = false) (undecided : g.decision = false)
      (scanned : g.scanned = true) (credit_ : credit = g.credit ∨ credit = false)
      (earlier : ∀ i < g.position, entries[i]? = g.entries[i]?)
      (final : ∃ entry, entries[g.position]? = some entry ∧ entry.result ≠ .pending) :
      Move g [] {g with entries := entries, credit := credit, position := g.position + 1}

end moves

def RefreshOutput.page : RefreshOutput → Nat
  | .dispatched id .. | .rejected id _ | .completed id .. | .enqueued id .. | .replied id _ => id

def Justified (config : Config) (past : List RefreshOutput) : RefreshOutput → Prop
  | .enqueued id position conf found zone rc => Evidence past id position found ∧
      Mapped (config.names conf.ns) conf.refreshPrefix found ∧ KeyCurrent config conf found zone rc
  | _ => True

/- While its request is alive, a page and the history agree. -/
structure Live (config : Config) (conf : RefreshConf) (id : Nat) (past : List RefreshOutput)
    (g : Progress) : Prop where
  known : ∀ probe, .rejected id probe ∈ past → probe < g.sent
  passed : ∀ i < g.position, ∃ entry, g.entries[i]? = some entry ∧ entry.result ≠ .pending
  flight : g.flying = if g.active then [g.sent - 1] else []
  started : g.active = true → g.sent ≠ 0
  credit : g.credit = g.active
  unscanned : g.scanned = false → g.position = 0 ∧ g.active = false ∧ g.decision = false
  posted : g.posted = true → g.scanned = false ∧ g.scanning = true
  probing : g.active = true → g.decision = false ∧ ∃ entry, g.entries[g.position]? = some entry ∧
    Mapped (config.names conf.ns) conf.refreshPrefix entry.found ∧
    .dispatched id (g.sent - 1) g.position entry.found ∈ past ∧
    (.rejected id (g.sent - 1) ∈ past → entry.result = .profile)
  decided : g.decision = true → ∃ entry, g.entries[g.position]? = some entry ∧
    Mapped (config.names conf.ns) conf.refreshPrefix entry.found ∧ Evidence past id g.position entry.found

section live
variable {config : Config} {conf : RefreshConf} {id : Nat} {past : List RefreshOutput}

theorem evidenceGrows {position : Nat} {found : Found} {out : List RefreshOutput}
    (evidence : Evidence past id position found) (silent : ∀ probe, .rejected id probe ∉ out) :
    Evidence (past ++ out) id position found := by
  obtain ⟨probe,status,sub,calls,unrefused⟩ := evidence
  refine ⟨probe,status,sub.trans (List.sublist_append_left past out),calls,?_⟩
  simp [unrefused,silent probe]

theorem liveGrows {g : Progress} {out : List RefreshOutput} (live : Live config conf id past g)
    (silent : ∀ probe, .rejected id probe ∉ out) : Live config conf id (past ++ out) g := by
  have refused {probe : Nat} (member : .rejected id probe ∈ past ++ out) : .rejected id probe ∈ past :=
    (List.mem_append.mp member).resolve_right (silent probe)
  refine {live with known := fun probe member => live.known probe (refused member), probing := ?_, decided := ?_}
  · intro active
    obtain ⟨undecided,entry,here,mapped,sent,rejected⟩ := live.probing active
    exact ⟨undecided,entry,here,mapped,List.mem_append_left out sent,fun member => rejected (refused member)⟩
  · intro decision
    obtain ⟨entry,here,mapped,evidence⟩ := live.decided decision
    exact ⟨entry,here,mapped,evidenceGrows evidence silent⟩

theorem liveQuiet {g : Progress} (live : Live config conf id past g) : Live config conf id (past ++ []) g :=
  liveGrows live (by simp)

theorem passedSame {g : Progress} {entries : List RefreshEntry} (live : Live config conf id past g)
    (earlier : ∀ i < g.position, entries[i]? = g.entries[i]?) :
    ∀ i < g.position, ∃ entry, entries[i]? = some entry ∧ entry.result ≠ .pending := by
  intro i before
  rw [earlier i before]
  exact live.passed i before

theorem passedNext {g : Progress} {entries : List RefreshEntry} (live : Live config conf id past g)
    (earlier : ∀ i < g.position, entries[i]? = g.entries[i]?)
    (final : ∃ entry, entries[g.position]? = some entry ∧ entry.result ≠ .pending) :
    ∀ i < g.position + 1, ∃ entry, entries[i]? = some entry ∧ entry.result ≠ .pending := by
  intro i before
  rcases Nat.lt_succ_iff_lt_or_eq.mp before with earlierOnes | rfl
  · exact passedSame live earlier i earlierOnes
  · exact final

theorem moveLive {g g' : Progress} {out : List RefreshOutput} (live : Live config conf id past g)
    (move : Move config conf id g out g') : Live config conf id (past ++ out) g' := by
  cases move with
  | rest => exact liveGrows live (by simp)
  | scan unscanned apart =>
    obtain ⟨start,idle,undecided⟩ := live.unscanned unscanned
    have same := liveQuiet live
    exact {same with
      passed := by simp [start]
      unscanned := fun _ => ⟨start,idle,undecided⟩
      posted := apart
      probing := by simp [idle]
      decided := by simp [undecided]}
  | notify idle => exact {liveQuiet live with posted := by simp [idle]}
  | @dispatch entry idle undecided scanned here mapped =>
    have empty : g.flying = [] := by simpa [idle] using live.flight
    refine ⟨?_,live.passed,by simp [empty],by simp,rfl,by simp [scanned],live.posted,?_,by simp [undecided]⟩
    · intro probe member
      exact Nat.lt_succ_of_lt (live.known probe (by simpa using member))
    · intro _
      refine ⟨undecided,entry,here,mapped,by simp,fun member => ?_⟩
      exact absurd (live.known g.sent (by simpa using member)) (lt_irrefl _)
  | @reject probe flies =>
    have active : g.active = true := by
      by_contra idle
      simp [live.flight,idle] at flies
    obtain ⟨undecided,entry,here,mapped,sent,_⟩ := live.probing active
    have earlier : ∀ i < g.position, (g.entries.modify g.position
        fun entry => {entry with result := .profile})[i]? = g.entries[i]? :=
      fun i before => List.getElem?_modify_ne _ _ (Nat.ne_of_gt before)
    have passed := passedSame live earlier
    have some : g.sent ≠ 0 := live.started active
    refine ⟨?_,passed,live.flight,live.started,live.credit,?_,live.posted,fun _ => ⟨undecided,?_⟩,
      by simp [undecided]⟩
    · intro other member
      rcases List.mem_append.mp member with earlier | now
      · exact live.known other earlier
      · have last : probe = g.sent - 1 := by simpa [live.flight,active] using flies
        cases List.mem_singleton.mp now
        exact last ▸ Nat.sub_lt (Nat.pos_of_ne_zero some) Nat.one_pos
    · intro unscanned
      exact live.unscanned unscanned
    · exact ⟨{entry with result := .profile},by simp [here],mapped,List.mem_append_left _ sent,fun _ => rfl⟩
  | @settle probe status entries entry decision flies active earlier here decided =>
    obtain ⟨_,entry',here',mapped,sent,rejected⟩ := live.probing active
    cases Option.some.inj (here.symm.trans here')
    have last : g.flying = [g.sent - 1] := by simpa [active] using live.flight
    have mine : probe = g.sent - 1 := by simpa [last] using flies
    have passed := passedSame live earlier
    refine ⟨fun other member => live.known other (by simpa using member),passed,
      by simp [last,mine],by simp,rfl,?_,live.posted,by simp,fun call => ?_⟩
    · intro unscanned
      exact absurd active (by simp [(live.unscanned unscanned).2.1])
    · obtain ⟨allowed,calls,entry',there,same⟩ := decided call
      refine ⟨entry',there,same ▸ mapped,probe,status,?_,calls,?_⟩
      · rw [same,mine]
        exact (List.singleton_sublist.mpr sent).append (.refl _)
      · intro member
        exact allowed (rejected (mine ▸ by simpa using member))
  | again => exact liveGrows live (by simp)
  | @judge entry entries out decided here said earlier final =>
    have silent : ∀ probe, .rejected id probe ∉ out := by
      rcases said with rfl | ⟨zone,rc,_,rfl⟩ <;> simp
    have same := liveGrows live silent
    have idle : g.active = false := by
      by_contra active
      have undecided := (live.probing (by simpa using active)).1
      simp [undecided] at decided
    have scanned : g.scanned = true := by
      by_contra unscanned
      have undecided := (live.unscanned (by simpa using unscanned)).2.2
      simp [undecided] at decided
    exact {same with
      passed := passedNext live earlier final
      unscanned := by simp [scanned]
      probing := by simp [idle]
      decided := by simp}
  | @pass entries credit idle undecided scanned credit_ earlier final =>
    have same := liveQuiet live
    have free : g.credit = false := live.credit.trans idle
    exact {same with
      credit := by rcases credit_ with rfl | rfl <;> simp [free,idle]
      passed := passedNext live earlier final
      unscanned := by simp [scanned]
      probing := by simp [idle]
      decided := by simp [undecided]}

theorem moveJustified {g g' : Progress} {out : List RefreshOutput} (live : Live config conf id past g)
    (move : Move config conf id g out g') : Witnessed (Justified config) past out := by
  have judged {entry : RefreshEntry} {zone : Zone} {rc : Rc} (decided : g.decision = true)
      (here : g.entries[g.position]? = some entry) (current : KeyCurrent config conf entry.found zone rc) :
      Witnessed (Justified config) past [.enqueued id g.position conf entry.found zone rc] := by
    obtain ⟨entry',here',mapped,evidence⟩ := live.decided decided
    cases Option.some.inj (here.symm.trans here')
    exact witnessedSingle ⟨evidence,mapped,current⟩
  cases move with
  | rest => exact witnessedNil past
  | scan => exact witnessedNil past
  | notify => exact witnessedNil past
  | dispatch => exact witnessedSingle trivial
  | reject => exact witnessedSingle trivial
  | settle => exact witnessedSingle trivial
  | again decided here current => exact judged decided here current
  | judge decided here said =>
    rcases said with rfl | ⟨zone,rc,current,rfl⟩
    · exact witnessedNil past
    · exact judged decided here current
  | pass => exact witnessedNil past

theorem moveOwn {g g' : Progress} {out : List RefreshOutput} (move : Move config conf id g out g') :
    ∀ o ∈ out, o.page = id := by
  cases move with
  | judge decided here said => rcases said with rfl | ⟨zone,rc,_,rfl⟩ <;> simp [RefreshOutput.page]
  | _ => simp [RefreshOutput.page]

end live
end CachePurge
