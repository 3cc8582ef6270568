import CachePurge.RefreshChain

/-! What a page makes of the files it is offered: its entries do not depend on their
order, and its cursor is the name of the last entry it has passed, which the next
request has to bring back. -/
namespace CachePurge
open General

structure Offer where
  path : Bytes
  visit : FileVisit
  zone : Zone
  content : Bytes

def RefreshFiles.meets (files : RefreshFiles) (o : Offer) : RefreshFiles :=
  {files with seen := fun _ => (o.zone,o.content)}

def refreshOffers (files : RefreshFiles) (after : Bytes) (offers : List Offer) : Batch Found :=
  offers.foldl (fun batch o => (refreshCollect (files.meets o) after o.path o.visit batch).2) .empty

section offers
variable {files : RefreshFiles} {after : Bytes}

def Offer.found (files : RefreshFiles) (after : Bytes) (o : Offer) : Option Found :=
  refreshFound (files.meets o) after (o.path,o.visit)

theorem offersCollected (offers : List Offer) (batch : Batch Found) :
    offers.foldl (fun batch o => (refreshCollect (files.meets o) after o.path o.visit batch).2) batch =
      batch.addAll Found.hash refreshBatch (offers.filterMap (Offer.found files after)) := by
  induction offers generalizing batch with
  | nil => rfl
  | cons o rest ih =>
    have one := @collectAll (files.meets o) after [(o.path,o.visit)] batch
    simp only [visitAll] at one
    rw [List.foldl_cons,ih,one]
    cases here : o.found files after with
    | none =>
      have none_ : refreshFound (files.meets o) after (o.path,o.visit) = none := here
      rw [List.filterMap_cons_none here,List.filterMap_cons_none none_]
      rfl
    | some found =>
      have some_ : refreshFound (files.meets o) after (o.path,o.visit) = some found := here
      rw [List.filterMap_cons_some here,List.filterMap_cons_some some_]
      rfl

theorem offersFound {offers : List Offer} (admitted : ∀ o ∈ offers, Admits (files.meets o) o.path o.visit) :
    ((offers.filterMap (Offer.found files after)).map Found.hash).toFinset =
      (offers.map fun o => fileHash o.path).toFinset.filter (after < ·) := by
  ext hash
  simp only [List.mem_toFinset,List.mem_map,List.mem_filterMap,Finset.mem_filter]
  constructor
  · rintro ⟨found,⟨o,member,here⟩,rfl⟩
    obtain ⟨_,ahead,same⟩ := admitFound (foundIff.mp here)
    rw [same]
    exact ⟨⟨o,member,rfl⟩,ahead⟩
  · rintro ⟨⟨o,member,rfl⟩,ahead⟩
    obtain ⟨found,here,same⟩ := foundAdmits (admitted o member) ahead
    exact ⟨found,⟨o,member,foundIff.mpr here⟩,same⟩

/- Whatever the order of the files and however often each of them comes, the entries
are the first hashes behind the cursor, and more tells whether there are others. -/
theorem collectSmallest (files : RefreshFiles) (after : Bytes) (offers : List Offer)
    (admitted : ∀ o ∈ offers, Admits (files.meets o) o.path o.visit) :
    let names := (offers.map fun o => fileHash o.path).toFinset.filter (after < ·)
    let batch := refreshOffers files after offers
    (batch.items.map Found.hash).Nodup ∧ batch.items.length = min refreshBatch names.card ∧
    (batch.items.map Found.hash).insertionSort (· ≤ ·) = (names.sort (· ≤ ·)).take refreshBatch ∧
    (batch.more = true ↔ refreshBatch < names.card) := by
  intro names batch
  obtain ⟨keys,nodup,all,kept⟩ := @addAllKept _ _ _ Found.hash refreshBatch
    (offers.filterMap (Offer.found files after)) [] .empty (by decide) smallestEmpty List.nodup_nil
  rw [offersFound admitted,List.toFinset_nil,Finset.empty_union] at all
  rw [← offersCollected] at kept
  obtain ⟨sorted,more⟩ : (batch.items.map Found.hash).insertionSort (· ≤ ·) = (names.sort (· ≤ ·)).take refreshBatch ∧
      (batch.more = true ↔ refreshBatch < names.card) := smallestSorted kept all nodup
  have sizes := congrArg List.length sorted
  rw [List.length_insertionSort,List.length_map,List.length_take,Finset.length_sort] at sizes
  refine ⟨?_,sizes,sorted,more⟩
  refine (List.perm_insertionSort (· ≤ ·) _).nodup_iff.mp ?_
  rw [sorted]
  exact (Finset.sort_nodup ..).sublist (List.take_sublist ..)

def variedFiles : RefreshFiles := siteDirectory variedNative [47,97,star] variedOrder variedContent

def siteOffer (name : Bytes) : Offer := ⟨[47,99] ++ slash :: name,siteVisit,generationInit siteEpoch,variedContent name⟩

theorem offerAdmitted {name : Bytes} (member : name ∈ variedOrder) :
    Admits (variedFiles.meets (siteOffer name)) (siteOffer name).path (siteOffer name).visit ∧
      fileHash (siteOffer name).path = name := by
  obtain ⟨admits,hash,_⟩ := siteAdmitted variedReadable member
  obtain ⟨entry,logical,read,current,accepts⟩ := admits.read
  refine ⟨⟨admits.named,admits.unprotected,admits.canonical,entry,logical,?_,current,accepts⟩,hash⟩
  change readKey variedNative wellRead _ (variedContent (fileHash ([47,99] ++ slash :: name))) = _ at read
  rwa [hash] at read

theorem offersCounted {names : List Bytes} (same : ∀ name, name ∈ names ↔ name ∈ variedOrder) :
    (((names.map siteOffer).map fun o => fileHash o.path).toFinset.filter (List.replicate 32 48 < ·)) = variedNames := by
  ext name
  have ahead : ∀ name ∈ variedOrder, List.replicate 32 48 < name := by decide +kernel
  rw [Finset.mem_filter,List.mem_toFinset,List.map_map,List.mem_map,variedListed]
  constructor
  · rintro ⟨⟨other,member,rfl⟩,_⟩
    have listed := (same other).mp member
    change fileHash (siteOffer other).path ∈ variedOrder
    rw [(offerAdmitted listed).2]
    exact listed
  · exact fun listed => ⟨⟨name,(same name).mpr listed,(offerAdmitted listed).2⟩,ahead name listed⟩

theorem collectSmallestTurned :
    let start := List.replicate 32 48
    let once := refreshOffers variedFiles start (variedOrder.map siteOffer)
    let turned := refreshOffers variedFiles start ((variedOrder.reverse ++ variedOrder).map siteOffer)
    (once.items.map Found.hash).insertionSort (· ≤ ·) = (turned.items.map Found.hash).insertionSort (· ≤ ·) ∧
    once.items.length = 32 ∧ turned.items.length = 32 ∧ once.more = true ∧ turned.more = true := by
  have count : variedNames.card = 34 := (List.toFinset_card_of_nodup variedDistinct).trans
    (by simp [variedOrder,variants,variantBytes])
  have each : ∀ names : List Bytes, (∀ name, name ∈ names ↔ name ∈ variedOrder) →
      let batch := refreshOffers variedFiles (List.replicate 32 48) (names.map siteOffer)
      (batch.items.map Found.hash).insertionSort (· ≤ ·) = (variedNames.sort (· ≤ ·)).take refreshBatch ∧
      batch.items.length = 32 ∧ batch.more = true := by
    intro names same batch
    have admitted : ∀ o ∈ names.map siteOffer, Admits (variedFiles.meets o) o.path o.visit := by
      intro o member
      obtain ⟨name,inside,rfl⟩ := List.mem_map.mp member
      exact (offerAdmitted ((same name).mp inside)).1
    obtain ⟨_,length,sorted,more⟩ := collectSmallest variedFiles (List.replicate 32 48) _ admitted
    rw [offersCounted same] at length sorted more
    rw [count] at length more
    exact ⟨sorted,length,more.mpr (by decide)⟩
  have one := each variedOrder fun _ => Iff.rfl
  have two := each (variedOrder.reverse ++ variedOrder) fun _ => by simp
  exact ⟨one.1.trans two.1.symm,one.2.1,two.2.1,one.2.2,two.2.2⟩

end offers

section boundary
variable {config : Config} {late : Bool} {members : Finset Bytes} {start : Bytes} {body : RefreshBody}

structure NameDigits (name : Bytes) : Prop where
  length : name.length = 32
  digits : ∀ c ∈ name, (hextoi c).isSome = true

theorem digitReads (c : UInt8) (digit : isHex c = true) : (hextoi c).isSome = true := by
  have all : ∀ n : Fin 256, isHex (UInt8.ofNat n) = true → (hextoi (UInt8.ofNat n)).isSome = true := by decide +kernel
  have this := all ⟨c.toNat,c.toNat_lt⟩
  simp only [UInt8.ofNat_toNat] at this
  exact this digit

theorem fileDigits {platform : Platform} {path : Bytes} (named : isCacheFile platform path = true) :
    NameDigits (fileHash path) := by
  unfold isCacheFile at named
  split at named
  · contradiction
  rename_i long
  simp only [Bool.and_eq_true] at named
  refine ⟨?_,fun c member => digitReads c (List.all_eq_true.mp named.2 c member)⟩
  rw [fileHash,List.length_drop]
  omega

theorem loweredSame {name : Bytes} : lowered name = name ↔ ∀ c ∈ name, tolower c = c := by
  conv_lhs => rhs; rw [← List.map_id name]
  exact List.map_eq_map_iff

theorem cursorRead {headers : List (Bytes × Bytes)} {key name : Bytes} (text : NameDigits name)
    (once : (headers.filter fun header => isCursorHeader header.1) = [(key,name)]) :
    refreshCursor headers = some (lowered name) := by
  have named : isCursorHeader key = true := by
    have member : (key,name) ∈ headers.filter fun header => isCursorHeader header.1 := by simp [once]
    exact (List.mem_filter.mp member).2
  have digits : (name.all fun c => (hextoi c).isSome) = true := List.all_eq_true.mpr text.digits
  rw [refreshCursor,cursorOnly,once]
  simp [cursorLoop,named,text.length,digits]

theorem servedDigits (served : Refreshed config late members start body) {name : Bytes} (member : name ∈ members) :
    NameDigits name := by
  obtain ⟨_,_,_,run,_⟩ := served
  obtain ⟨files,_,holds,_⟩ := run.scans
  obtain ⟨path,v,_,admits,rfl⟩ := (holds name).mp member
  exact fileDigits admits.named

theorem passedLast (served : Refreshed config late members start body) {row : RefreshRow}
    (last : body.processed.getLast? = some row) : body.nextCursor = row.hash ∧ row.hash ∈ members := by
  obtain ⟨x,_,_,rfl,names,_,reported⟩ := refreshedReports served
  cases scanned : body.scanComplete with
  | false =>
    have none_ := (reported.unfinished scanned).1
    rw [RefreshBody.processed,none_,List.take_nil] at last
    contradiction
  | true =>
    obtain ⟨position,within,rows,undispatched,next,_⟩ := reported.finished scanned
    have count : body.results.length = x.names.length := by rw [← rows,List.length_map]
    have passed : body.results.length - body.undispatched = position := by omega
    have hashes : (x.names.take position).getLast? = some row.hash := by
      rw [← rows,← List.map_take,List.getLast?_map,← passed]
      exact congrArg (Option.map RefreshRow.hash) last
    refine ⟨by rw [next,cursorAfter,hashes]; rfl,?_⟩
    have inside := List.mem_of_mem_take (List.mem_of_getLast? hashes)
    rw [names] at inside
    exact (aboveMember.mp (List.mem_of_mem_take inside)).1

structure Resumes (members : Finset Bytes) (name : Bytes) (headers : List (Bytes × Bytes)) : Prop where
  boundary : refreshCursor headers = some name
  ahead : ∀ cursor, refreshCursor headers = some cursor → ∀ other ∈ members, name < other → cursor < other

/- The cursor that a page prints after an entry is always accepted again; it comes
back as the same boundary exactly if the file's name has no upper-case digit. -/
theorem cursorReturns (config : Config) (late : Bool) (members : Finset Bytes) (start : Bytes) (body : RefreshBody)
    (served : Refreshed config late members start body) (row : RefreshRow)
    (last : body.processed.getLast? = some row) (headers : List (Bytes × Bytes)) (key : Bytes)
    (once : (headers.filter fun header => isCursorHeader header.1) = [(key,body.nextCursor)]) :
    body.nextCursor = row.hash ∧ (refreshCursor headers).isSome = true ∧
    (Resumes members row.hash headers ↔ ∀ c ∈ row.hash, tolower c = c) := by
  obtain ⟨next,member⟩ := passedLast served last
  have read := cursorRead (next ▸ servedDigits served member) once
  rw [next] at read
  refine ⟨next,by rw [read]; rfl,fun resumes c inside => ?_,fun lower => ?_⟩
  · have same : lowered row.hash = row.hash := Option.some.inj (read.symm.trans resumes.boundary)
    exact loweredSame.mp same c inside
  · have same : lowered row.hash = row.hash := loweredSame.mpr lower
    rw [same] at read
    refine ⟨read,fun cursor reads other _ later => ?_⟩
    cases Option.some.inj (read.symm.trans reads)
    exact later

theorem cursorReturnsSite : Resumes {fileHash sitePath} (fileHash sitePath) [(cursorHeader,fileHash sitePath)] :=
  (cursorReturns sitePages false {fileHash sitePath} _ siteBody (answeredServed siteRefreshed) ⟨fileHash sitePath,304,.kept⟩ rfl
    [(cursorHeader,fileHash sitePath)] cursorHeader rfl).2.2.mpr (loweredSame.mp (by decide +kernel))

def upperHash : Bytes := (fileHash sitePath).map fun c => if 97 ≤ c then c - 32 else c

def upperBody : RefreshBody :=
  ⟨true,false,true,1,upperHash,[⟨upperHash,304,.kept⟩,⟨fileHash sitePath,0,.pending⟩]⟩

theorem upperServed : Refreshed sitePages false {upperHash,fileHash sitePath} (List.replicate 32 48) upperBody :=
  answeredServed (@directoryAnswered siteNative [47,97] [upperHash,fileHash sitePath] (fun _ => siteEntry siteKey)
    (by decide +kernel) (by decide +kernel) _ (by simp) _ [.inl 0,.inr (0,304),.inl 0] 1000 ⟨upperBody,[upperHash],true⟩
    (by decide +kernel))

theorem cursorReturnsUpper :
    Refreshed sitePages false {upperHash,fileHash sitePath} (List.replicate 32 48) upperBody ∧
    upperBody.processed.getLast? = some ⟨upperHash,304,.kept⟩ ∧
    ([(cursorHeader,upperBody.nextCursor)].filter fun header => isCursorHeader header.1) =
      [(cursorHeader,upperBody.nextCursor)] ∧
    refreshCursor [(cursorHeader,upperBody.nextCursor)] = some (fileHash sitePath) ∧
    upperHash < fileHash sitePath ∧
    ¬ Resumes {upperHash,fileHash sitePath} upperHash [(cursorHeader,upperBody.nextCursor)] := by
  refine ⟨upperServed,rfl,by decide +kernel,by decide +kernel,by decide +kernel,fun resumes => ?_⟩
  have other : refreshCursor [(cursorHeader,upperBody.nextCursor)] ≠ some upperHash := by decide +kernel
  exact other resumes.boundary

end boundary
end CachePurge
