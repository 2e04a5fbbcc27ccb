import PredTrans.Storage.VersionCheckpoint

/-! When no transaction is active, every row was inserted by a commit and every delete mark is
final. The manager is then written and read back. -/

namespace PredTrans.Storage

open Library List

namespace History

open RowVersionManager

variable {s s' : History}

/-- No transaction is active. -/
def Quiescent (s : History) : Prop :=
  ∀ t x, s.txns t = some x → ¬ x.phase.Unfinished

theorem Clock.committed_lt (h : Clock s) (hc : s.Committed t c) : c < s.clock := by
  obtain ⟨x,hx,hphase⟩ := hc
  by_cases ht : t = 0
  · rw [ht,h.loader] at hx
    cases hx
    cases hphase
    have := h.clock_ge
    omega
  · exact (h.stamp hx ht (by rw [hphase]; rfl)).2

theorem Inv.atRest (h : Inv s) (hq : s.Quiescent) (hclock : s.clock < transactionIdStart) :
    AtRest s.manager s.count := by
  have hpending : s.pending = none := by
    cases hp : s.pending with
    | none => rfl
    | some p =>
      obtain ⟨-,x,hx,hun,-⟩ := h.inserts.owner hp
      exact absurd hun (hq _ x hx)
  have hid := h.clock.id_le
  have hinvalid : notDeletedId < invalidIndex := by decide
  have hlt := transactionIdStart_lt
  refine ⟨h.coherent,?_,?_⟩
  · intro r hr
    have := h.clock.committed_lt (h.inserts.settled r (by rw [limit_none hpending]; exact hr))
    omega
  intro r hr
  cases hd : s.deleter r with
  | none =>
    rw [h.deletes.unmarked r hr hd]
    omega
  | some t =>
    obtain ⟨-,x,hx,hcase⟩ := h.deletes.marked hd
    rcases hcase with ⟨he,hne⟩ | hst
    · have ht : t ≠ 0 := by
        intro h0
        rw [h0,h.clock.loader] at hx
        cases hx
        exact hne 0 rfl
      have := h.clock.txn hx ht
      omega
    · have hfin := hq t x hx
      have hcom : s.Committed t (s.manager.deletedAt r) := by
        refine ⟨x,hx,?_⟩
        cases hp : x.phase with
        | committed c =>
          rw [hp] at hst
          exact congrArg Phase.committed hst
        | stamping goal todo =>
          rw [hp] at hfin
          exact absurd trivial hfin
        | active | failed | aborted => rw [hp] at hst; exact hst.elim
      have := h.clock.committed_lt hcom
      omega

/-- The manager of a row group when its history begins: a new one, or one that was
read from disk. -/
inductive Stored : RowVersionManager → Nat → Prop
  | new {start n : Nat} : n ≤ rowGroupSize → Stored { start := start } n
  | read {start n : Nat} {stored : StoredVersions} {m : RowVersionManager} :
      deserialize (some stored) start = .ok (some m) → Loaded m n → Stored m n

theorem Stored.loaded (h : Stored m n) : Loaded m n := by
  cases h with
  | new hn => exact loaded_new hn
  | read _ hl => exact hl

/-- Either the manager has noticed a change, or it is the one of the beginning. -/
def Noticed (m₀ : RowVersionManager) (n₀ : Nat) (s : History) : Prop :=
  s.manager.hasChanges = true ∨ s.manager = m₀ ∧ s.count = n₀ ∧ s.pending = none

theorem appendVector_hasChanges (hm : m.hasChanges = true) (h : appendVector tid a b m w = .ok m') :
    m'.hasChanges = true := by
  unfold appendVector at h
  dsimp only at h
  split at h
  · cases h
    exact hm
  · split at h <;> cases h <;> exact hm

theorem commitVector_hasChanges (hm : m.hasChanges = true) (h : commitVector c a b m w = .ok m') :
    m'.hasChanges = true := by
  unfold commitVector at h
  split at h <;> cases h
  exact hm

theorem noticed_step (h : Noticed m₀ n₀ s) (hs : Step s s') : Noticed m₀ n₀ s' := by
  cases hs with
  | append hx hphase hnone hk hfit hm =>
    exact .inl (foldlM_keep (fun m : RowVersionManager => m.hasChanges = true)
      (fun _ _ _ => appendVector_hasChanges) rfl hm)
  | delete | stamp => exact .inl rfl
  | commitAppend hx hphase hp hm =>
    rcases h with h | ⟨-,-,hnone⟩
    · left
      unfold RowVersionManager.commitAppend at hm
      split at hm
      · cases hm
        exact h
      · exact foldlM_keep (fun m : RowVersionManager => m.hasChanges = true)
          (fun _ _ _ => commitVector_hasChanges) h hm
    · rw [hnone] at hp
      cases hp
  | revertAppend hx hphase hp =>
    rcases h with h | ⟨-,-,hnone⟩
    · exact .inl h
    · rw [hnone] at hp
      cases hp
  | finishCommit hx hphase hp =>
    rcases h with h | ⟨h1,h2,hnone⟩
    · exact .inl h
    · exact .inr ⟨h1,h2,by simp [hnone]⟩
  | begin | startCommit | fail | startRollback | finishRevert | finishRollback => exact h

theorem noticed_run (hs : Run (initial m₀ n₀) s) : Noticed m₀ n₀ s := by
  induction hs with
  | refl => exact .inr ⟨rfl,rfl,rfl⟩
  | tail _ hstep ih => exact noticed_step ih hstep

/-- A manager that was read from disk and not changed is read again as it was. -/
theorem reload_read {start : Nat} (h : deserialize (some stored) start = .ok (some m)) :
    m.hasChanges = false ∧ m.reload = .ok m ∧ ∀ n, ¬ m.StaleSlot n := by
  have hread : readInfos { start := start, storagePointers := some stored } stored = .ok m := by
    unfold deserialize at h
    cases hr : readInfos { start := start, storagePointers := some stored } stored with
    | error e => simp [hr,Except.map] at h
    | ok m' =>
      simp only [hr,Except.map,Except.ok.injEq,Option.some.injEq] at h
      rw [h]
  obtain ⟨h1,h2,h3,h4⟩ := readInfos_fields hread
  refine ⟨h2,?_,?_⟩
  · unfold reload RowVersionManager.checkpoint
    simp [h1,h2,h3,h,Except.map]
  intro n hstale
  obtain ⟨v,info,i,hv,-,-,-,-,hid,-⟩ := hstale
  have hpos : 0 < transactionIdStart - 1 := by decide
  rcases h4 v with he | ⟨st,he⟩
  · rw [he] at hv
    cases hv
  rw [he] at hv
  cases st with
  | empty | constant start => cases hv
  | vector start mask =>
    cases hv
    simp only [ChunkVectorInfo.read] at hid
    omega

/-- The version information of a row group at rest survives a checkpoint exactly if
no vector with deletes has a stale slot past the last row. -/
theorem checkpoint_survives_iff {m₀ : RowVersionManager} {n₀ : Nat} (h₀ : Stored m₀ n₀)
    (hs : Run (initial m₀ n₀) s) (hq : s.Quiescent) (hclock : s.clock < transactionIdStart) :
    (∃ m', s.manager.reload = .ok m' ∧ Survives s.manager m' s.count) ↔
        ¬ s.manager.StaleSlot s.count := by
  have hrest := (inv_run (inv_initial h₀.loaded) hs).atRest hq hclock
  -- either every vector was written, or nothing has changed since the last reading
  have hcase : (s.manager.hasChanges = true ∨ s.manager.storagePointers = none) ∨
      s.manager = m₀ ∧ s.count = n₀ ∧ ∃ start stored, deserialize (some stored) start =
          .ok (some m₀) := by
    rcases noticed_run hs with h | ⟨hm,hn,-⟩
    · exact .inl (.inl h)
    · cases h₀ with
      | new _ => exact .inl (.inr (by rw [hm]))
      | read hread _ => exact .inr ⟨hm,hn,_,_,hread⟩
  rcases hcase with hwritten | ⟨hm,hn,start,stored,hread⟩
  · obtain ⟨m',hok,hinfo⟩ := reload_eq hwritten (fun v hv => hrest.fits hv)
    constructor
    · intro hsurvives hstale
      obtain ⟨m'',hok',hs'⟩ := hsurvives
      rw [hok] at hok'
      cases hok'
      exact not_survives_of_stale hrest hinfo hstale hs'
    intro hstale
    refine ⟨m',hok,survives_of_loaded (hrest.loaded hinfo hstale) ?_⟩
    intro r hr
    have hpos : 0 < transactionIdStart := by decide
    have hnd : ¬ notDeletedId < transactionIdStart := by decide
    unfold Deleted
    rw [(hrest.reloaded_deletedAt hinfo hr).2]
    by_cases hd : s.manager.deletedAt r < transactionIdStart
    · simp [hd,hpos]
    · simp only [hd,if_false,hnd]
  · obtain ⟨-,hok,hstale⟩ := reload_read hread
    rw [hm,hn]
    refine ⟨fun _ => hstale n₀,fun _ => ⟨m₀,hok,?_⟩⟩
    exact survives_of_loaded h₀.loaded (fun _ _ => Iff.rfl)

theorem setTxn_setTxn (txns : Nat → Option Txn) (t : Nat) (x y : Txn) :
    setTxn (setTxn txns t x) t y = setTxn txns t y := by
  funext u
  by_cases hu : u = t <;> simp [setTxn,hu]

/-- A row group that was loaded with one row, and a single transaction. -/
def singleTxn (m : RowVersionManager) (count : Nat) (x : Txn) (clock : Nat)
    (pending : Option PendingAppend) (lock : Option Nat) (inserter : Nat → Nat)
    (deleter : Nat → Option Nat) : History where
  manager := m
  count := count
  txns := setTxn (initial { start := 0 } 1).txns transactionIdStart x
  clock := clock
  nextId := transactionIdStart + 1
  pending := pending
  lock := lock
  inserter := inserter
  deleter := deleter

/-- The transaction has deleted row 0. -/
def deletedManager : RowVersionManager :=
  (({ start := 0 } : RowVersionManager).deleteRows 0 transactionIdStart [0]).1

/-- It has also appended row 1. -/
def appendedManager : RowVersionManager :=
  { deletedManager with hasChanges := true }.set 0 (.vector
    ((({ start := 0 } : RowVersionManager).getVectorInfo 0).delete transactionIdStart [0]
      |>.1.append 1 2 transactionIdStart))

theorem deletedManager_append :
    deletedManager.appendVersionInfo ⟨transactionIdStart, 2⟩ 1 2 = .ok appendedManager := rfl

/-- Its commit has failed, and it was rolled back. -/
def rolledBackManager : RowVersionManager :=
  (appendedManager.commitDelete 0 notDeletedId [0]).revertAppend 1

/-- Who deleted a row once the transaction has deleted row 0. -/
def deletedBy : Nat → Option Nat :=
  (withOneTransaction 1).markDeleted transactionIdStart 0 [0]

/-- Who inserted a row, once row 1 is appended. -/
def insertedBy (r : Nat) : Nat := if 1 ≤ r then transactionIdStart else 0

/-- The transaction, which has deleted row 0, from the start of its commit on. -/
def failing (m : RowVersionManager) (count : Nat) (phase : Phase) (pending : Option PendingAppend)
    (inserter : Nat → Nat) (deleter : Nat → Option Nat) : History :=
  singleTxn m count ⟨2, [⟨0, [0]⟩], phase⟩ 4 pending (some transactionIdStart) inserter deleter

theorem failing_txns : (failing m n phase p f g).txns transactionIdStart =
    some ⟨2, [⟨0, [0]⟩], phase⟩ := by
  simp [failing,singleTxn]

theorem setTxn_failing : setTxn (failing m n phase p f g).txns
    transactionIdStart ⟨2, [⟨0, [0]⟩], phase'⟩ =
      (failing m n phase' p f g).txns :=
  setTxn_setTxn _ _ _ _

/-- The commit of the transaction has begun. -/
theorem run_startCommit : Run (initial { start := 0 } 1)
    (failing deletedManager 1 (.stamping (.commit 3) [⟨0, [0]⟩]) none (fun _ => 0) deletedBy) := by
  have h1 : Step (initial { start := 0 } 1) (withOneTransaction 1) :=
    Step.begin (s := initial { start := 0 } 1) rfl (by decide) (by decide)
  have h2 := @Step.delete (withOneTransaction 1) transactionIdStart 0 ⟨2,[],.active⟩ [0]
    (by simp [withOneTransaction]) rfl (by simp) (by intro i hi; rw [mem_singleton.mp hi]; decide)
  rw [show Txn.afterDelete ⟨2,[],.active⟩ 0 ((withOneTransaction 1).manager.deleteRows 0
    transactionIdStart [0]).2 = ⟨2,[⟨0,[0]⟩],.active⟩ from rfl,
    show setTxn (withOneTransaction 1).txns transactionIdStart ⟨2,[⟨0,[0]⟩],.active⟩ =
      setTxn (initial { start := 0 } 1).txns transactionIdStart ⟨2,[⟨0,[0]⟩],.active⟩ from
        setTxn_setTxn _ _ _ _] at h2
  have h3 := @Step.startCommit (singleTxn deletedManager 1 ⟨2,[⟨0,[0]⟩],.active⟩ 3 none none
    (fun _ => 0) deletedBy) transactionIdStart ⟨2,[⟨0,[0]⟩],.active⟩ (by simp [singleTxn]) rfl rfl
    (show 3 < transactionIdStart by decide)
  simp only [singleTxn,setTxn_setTxn] at h3
  exact .tail (.tail (.single h1) h2) h3

/-- It ends. -/
theorem run_committed : Run (initial { start := 0 } 1)
    (singleTxn (deletedManager.commitDelete 0 3 [0])
    1 ⟨2, [⟨0, [0]⟩], .committed 3⟩ 4 none none (fun _ => 0) deletedBy) := by
  have h4 := @Step.stamp (failing deletedManager 1 (.stamping (.commit 3) [⟨0,[0]⟩]) none
    (fun _ => 0) deletedBy) transactionIdStart _ (.commit 3) ⟨0,[0]⟩ [] failing_txns rfl
  rw [setTxn_failing] at h4
  have h5 := @Step.finishCommit (failing (deletedManager.commitDelete 0 3 [0]) 1
    (.stamping (.commit 3) []) none (fun _ => 0) deletedBy) transactionIdStart 3 _ failing_txns rfl
    (by simp [failing,singleTxn])
  rw [setTxn_failing] at h5
  exact (run_startCommit.tail h4).tail h5

/-- Its append fails instead, and it is rolled back. -/
theorem run_rolledBack : ∃ inserter deleter, Run (initial { start := 0 } 1)
    (singleTxn rolledBackManager 1 ⟨2, [⟨0, [0]⟩], .aborted⟩ 4 none none inserter deleter) := by
  have h4 := @Step.append (failing deletedManager 1 (.stamping (.commit 3) [⟨0,[0]⟩]) none
    (fun _ => 0) deletedBy) transactionIdStart 1 _ appendedManager failing_txns trivial rfl
    (by decide) (show 2 ≤ rowGroupSize by decide) deletedManager_append
  generalize hd : (fun r => if (failing deletedManager 1 _ none _ deletedBy).count ≤ r then none
    else (failing deletedManager 1 _ none _ deletedBy).deleter r) = d at h4
  -- the row that the transaction deleted still carries its id, so nothing is visited
  have h5 := @Step.fail (failing appendedManager 2 (.stamping (.commit 3) [⟨0,[0]⟩])
    (some ⟨transactionIdStart,1,none⟩) insertedBy d) transactionIdStart 3 _ [⟨0,[0]⟩] []
    failing_txns rfl (by simp) (by
      intro r hr hne
      have hr0 : r = 0 := by
        have hr : d r = some transactionIdStart := hr
        rw [← hd] at hr
        by_contra h0
        have h1 : 1 ≤ r := Nat.one_le_iff_ne_zero.mpr h0
        simp [failing,singleTxn,h1] at hr
      subst hr0
      exact absurd rfl hne)
  rw [setTxn_failing] at h5
  have h6 := @Step.finishRevert (failing appendedManager 2 (.stamping (.revert 3) [])
    (some ⟨transactionIdStart,1,none⟩) insertedBy d) transactionIdStart 3 _ failing_txns rfl
  rw [setTxn_failing] at h6
  have h7 := @Step.stamp (failing appendedManager 2 (.stamping .rollback [⟨0,[0]⟩])
    (some ⟨transactionIdStart,1,none⟩) insertedBy d) transactionIdStart _ .rollback ⟨0,[0]⟩ []
    failing_txns rfl
  rw [setTxn_failing] at h7
  generalize (failing appendedManager 2 _ _ insertedBy d).unmark .rollback ⟨0,[0]⟩ = d' at h7
  have h8 := @Step.revertAppend (failing (appendedManager.commitDelete 0 notDeletedId [0]) 2
    (.stamping .rollback []) (some ⟨transactionIdStart,1,none⟩) insertedBy d') transactionIdStart 1
    _ none failing_txns (by simp) rfl
  have h9 := @Step.finishRollback (failing rolledBackManager 1 (.stamping .rollback []) none
    insertedBy d') transactionIdStart _ failing_txns rfl (by simp [failing,singleTxn])
  rw [setTxn_failing] at h9
  refine ⟨insertedBy,d',?_⟩
  exact (((((run_startCommit.tail h4).tail h5).tail h6).tail h7).tail h8).tail h9

theorem singleTxn_quiescent {count clock : Nat} {lock : Option Nat} {inserter : Nat → Nat}
    {deleter : Nat → Option Nat} (hp : ¬ phase.Unfinished) :
    (singleTxn m count ⟨2, undo, phase⟩ clock none lock inserter deleter).Quiescent := by
  intro t x hx hun
  rcases setTxn_cases hx with ⟨-,he⟩ | ⟨-,hx⟩
  · subst he
    exact hp hun
  simp only [initial] at hx
  split at hx
  · cases hx
    exact hun
  · cases hx

/-- The info of the only vector after the rollback. -/
def rolledBackInfo : ChunkVectorInfo :=
  ((({ start := 0 } : RowVersionManager).getVectorInfo 0).delete transactionIdStart [0]
    |>.1.append 1 2 transactionIdStart).commitDelete notDeletedId [0]

theorem rolledBackManager_info : rolledBackManager.vectorInfo 0 =
    some (.vector rolledBackInfo) := rfl

theorem not_staleSlot_committed : ¬ (deletedManager.commitDelete 0 3 [0]).StaleSlot 1 := by
  rintro ⟨v,info,i,hv,-,hsame,-⟩
  by_cases h0 : v = 0
  · subst h0
    cases hv
    cases hsame
  · have hnone : (deletedManager.commitDelete 0 3 [0]).vectorInfo v = none := by
      simp [deletedManager,deleteRows,RowVersionManager.commitDelete,RowVersionManager.set,
        getVectorInfo,h0]
    rw [hnone] at hv
    cases hv

/-- The versions of the committed delete survive a restart. -/
theorem survives_iff_rolledBack :
    (∃ s, Run (initial { start := 0 } 1) s ∧ s.Quiescent ∧ s.clock < transactionIdStart ∧
      ((∃ m', s.manager.reload = .ok m' ∧ Survives s.manager m' s.count) ↔
        ¬ s.manager.StaleSlot s.count)) ∧
    ∃ m', (deletedManager.commitDelete 0 3 [0]).reload = .ok m' ∧
      Survives (deletedManager.commitDelete 0 3 [0]) m' 1 := by
  have hclock : 4 < transactionIdStart := by decide
  obtain ⟨inserter,deleter,hrun⟩ := run_rolledBack
  refine ⟨⟨_,hrun,singleTxn_quiescent id,hclock,
    checkpoint_survives_iff (.new (by decide)) hrun (singleTxn_quiescent id) hclock⟩,?_⟩
  exact (checkpoint_survives_iff (.new (by decide)) run_committed
    (singleTxn_quiescent id) hclock).mpr
    not_staleSlot_committed

/-- Reading back the vector of the rolled back transaction gives a vector in which
slot 1 is deleted. -/
theorem rolledBackInfo_read : ∃ w, ChunkInfo.read rolledBackInfo.write = some (.vector w) ∧
    w.deleted 1 = 0 := by
  have hany : rolledBackInfo.anyDeleted = true := rfl
  have h1 := (ChunkVectorInfo.read_write hany (show 1 < standardVectorSize by decide)).2
  have h2 := (ChunkVectorInfo.read_write hany (show 2 < standardVectorSize by decide)).2
  have hne : notDeletedId ≠ 0 := by decide
  rcases rolledBackInfo.read_write_cases with he | ⟨c,he,hc⟩ | ⟨w,he,-⟩
  · rw [he] at h1
    exact absurd h1 hne
  · rw [he] at h2
    exact absurd (h2.symm.trans hc) hne
  · rw [he] at h1
    exact ⟨w,he,h1⟩

/-- After the failed commit, a checkpoint and a restart, a row that is appended and
committed is invisible to a transaction that starts later. -/
theorem reload_hides_appended_row : ∃ s m' m₁ m₂, Run (initial { start := 0 } 1) s ∧ s.Quiescent ∧
    s.clock < transactionIdStart ∧ s.count = 1 ∧ s.manager.reload = .ok m' ∧
    m'.appendVersionInfo ⟨transactionIdStart, 2⟩ 1 2 = .ok m₁ ∧ m₁.commitAppend 3 1 1 = .ok m₂ ∧
    (⟨transactionIdStart + 1, 4⟩ : TransactionData).Valid ∧
    m₂.fetch ⟨transactionIdStart + 1, 4⟩ 1 = false := by
  obtain ⟨inserter,deleter,hrun⟩ := run_rolledBack
  have hclock : 4 < transactionIdStart := by decide
  have hrest := (inv_run (inv_initial (loaded_new (by decide))) hrun).atRest
      (singleTxn_quiescent id) hclock
  obtain ⟨m',hok,hinfo⟩ := reload_eq (.inl rfl) (fun v hv => hrest.fits hv)
  obtain ⟨w,hread,hdel⟩ := rolledBackInfo_read
  have hw : m'.vectorInfo 0 = some (.vector w) :=
    (hinfo 0).trans ((congrArg reloadedInfo rolledBackManager_info).trans
      ((reloadedInfo_vector rfl).trans hread))
  have hcover : coveredVectors 1 2 = [0] := by decide
  have hstart : vectorStart 1 0 = 1 := by decide
  have hend : vectorEnd 2 0 = 2 := by decide
  have happend : m'.appendVersionInfo ⟨transactionIdStart,2⟩ 1 2 =
      .ok ({ m' with hasChanges := true }.set 0 (.vector (w.append 1 2 transactionIdStart))) := by
    simp only [appendVersionInfo,hcover,foldlM_cons,foldlM_nil,appendVector,hstart,hend,
      hw,Nat.one_ne_zero,false_and,if_false]
    rfl
  obtain ⟨m₂,hcommit⟩ : ∃ m₂, ({ m' with hasChanges := true }.set 0
      (.vector (w.append 1 2 transactionIdStart))).commitAppend 3 1 1 = .ok m₂ := by
    simp only [RowVersionManager.commitAppend,Nat.one_ne_zero,if_false,Nat.reduceAdd,hcover,
      foldlM_cons,foldlM_nil,commitVector,set_vectorInfo,if_true]
    exact ⟨_,rfl⟩
  have hvalid : (⟨transactionIdStart + 1,4⟩ : TransactionData).Valid :=
    ⟨by decide,by decide,by decide,by decide⟩
  refine ⟨_,m',_,m₂,hrun,(singleTxn_quiescent id),hclock,rfl,hok,happend,hcommit,hvalid,?_⟩
  apply fetch_loaded_deleted hvalid
  have hd : m'.deletedAt (0 * standardVectorSize + 1) = 0 := by
    unfold deletedAt
    rw [vector_of_row 0 (by decide),slot_of_row 0 (by decide),hw]
    exact hdel
  simpa using deletedAt_append_commit happend hcommit (by decide) (by decide) (by decide) hd

end History

end PredTrans.Storage
