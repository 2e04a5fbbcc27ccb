import PredTrans.Storage.SnapshotIsolation
import PredTrans.Transaction.Cleanup

/-! `CREATE INDEX` and the verification of constraints scan all rows except those that are deleted
for good, which is decided from the delete id and the lowest active start time. The scan also leaves
out rows whose deleter is still running and may roll back. -/

namespace PredTrans.Storage
open List Or
open Transaction (DuckTransaction DuckTransactionManager)
open Transaction.DuckTransactionManager (updateActive)

namespace History

open RowVersionManager

variable {s s' : History} {t u c r : Nat} {x y : Txn} {tm tm' : DuckTransactionManager}

/-- The transaction has begun and is still in the list of active transactions. -/
def Unfinished (s : History) (t : Nat) : Prop :=
  ∃ x, s.txns t = some x ∧ x.phase.Unfinished

/-- A transaction that moves on to another unfinished phase leaves nobody finished. -/
theorem Unfinished.setTxn (h : s.Unfinished u) (htxns : s'.txns = setTxn s.txns t x)
    (hx : x.phase.Unfinished) : s'.Unfinished u := by
  obtain ⟨z,hz,hun⟩ := h
  by_cases he : u = t
  · exact ⟨x,by rw [htxns,he,setTxn_self],hx⟩
  · exact ⟨z,by rw [htxns,setTxn_of_ne he,hz],hun⟩

theorem not_unfinished (hx : s.txns t = some x) (h : ¬ x.phase.Unfinished) :
    ¬ s.Unfinished t := by
  rintro ⟨y,hy,hun⟩
  rw [hx] at hy
  cases hy
  exact h hun

/-- A history together with the transaction manager that hands out its numbers. A transaction draws
its commit id from the same counter some steps before it leaves the list of active ones. -/
inductive Tracked (start n : Nat) : History → DuckTransactionManager → Prop where
  | initial : Tracked start n (initial { start := start } n) .initial
  | begin {s s' : History} {tm tm' : DuckTransactionManager} (h : Tracked start n s tm)
      (hs : Step s s') (hid : s'.nextId ≠ s.nextId) (htm : tm.startTransaction = some tm') :
      Tracked start n s' tm'
  | remove {s s' : History} {tm tm' : DuckTransactionManager} {t currentQuery : Nat}
      {changesMade : Bool} {cleaned : List DuckTransaction} (h : Tracked start n s tm)
      (hs : Step s s') (ht : s.Unfinished t) (ht' : ¬ s'.Unfinished t)
      (htm : tm.removeTransaction t changesMade currentQuery = some (tm', cleaned)) :
      Tracked start n s' tm'
  | other {s s' : History} {tm : DuckTransactionManager} (h : Tracked start n s tm) (hs : Step s s')
      (hid : s'.nextId = s.nextId) (hall : ∀ t, s.Unfinished t → s'.Unfinished t)
      (t commitId : Nat) :
      Tracked start n s' { tm.updateActive t fun T => { T with commitId := commitId } with
        currentStartTimestamp := s'.clock }

theorem Tracked.run {start n : Nat} (h : Tracked start n s tm) :
    Run (History.initial { start := start } n) s := by
  induction h with
  | initial => exact .refl
  | begin _ hs _ _ ih | remove _ hs _ _ _ ih | other _ hs _ _ _ _ ih => exact ih.tail hs

/-- A step begins a transaction, changes an unfinished one, or changes none. -/
theorem Step.txns_cases (hs : Step s s') : s'.txns = s.txns ∨
    (s'.txns = setTxn s.txns s.nextId { startTime := s.clock } ∧ s'.nextId ≠ s.nextId) ∨
    ∃ t x x', s.txns t = some x ∧ x.phase.Unfinished ∧ s'.txns = setTxn s.txns t x' ∧
      x'.startTime = x.startTime := by
  cases hs with
  | begin => exact inr (inl ⟨rfl,Nat.succ_ne_self _⟩)
  | append | commitAppend | revertAppend => exact inl rfl
  | delete hx hphase =>
    exact inr (inr ⟨_,_,_,hx,by rw [hphase]; trivial,rfl,afterDelete_startTime _ _ _⟩)
  | startRollback hx hphase => exact inr (inr ⟨_,_,_,hx,hphase.unfinished,rfl,rfl⟩)
  | startCommit hx hphase | stamp hx hphase | fail _ hx hphase | finishCommit hx hphase
  | finishRevert hx hphase | finishRollback hx hphase =>
    exact inr (inr ⟨_,_,_,hx,by rw [hphase]; trivial,rfl,rfl⟩)

/-- Where a transaction of the next state comes from. -/
theorem Step.origin (hs : Step s s') (hy : s'.txns t = some y) :
    (∃ x, s.txns t = some x ∧ y.startTime = x.startTime ∧
        (y.phase.Unfinished → x.phase.Unfinished)) ∨
      (t = s.nextId ∧ y.startTime = s.clock ∧ s'.nextId ≠ s.nextId) := by
  rcases hs.txns_cases with h | ⟨h,hid⟩ | ⟨u,x,x',hx,hun,h,hstart⟩
  · exact inl ⟨y,h ▸ hy,rfl,id⟩
  · rw [h] at hy
    rcases setTxn_cases hy with ⟨he,hy⟩ | ⟨-,hy⟩
    · exact inr ⟨he,by rw [hy],hid⟩
    · exact inl ⟨y,hy,rfl,id⟩
  · rw [h] at hy
    rcases setTxn_cases hy with ⟨he,hy⟩ | ⟨-,hy⟩
    · exact inl ⟨x,he ▸ hx,by rw [hy,hstart],fun _ => hun⟩
    · exact inl ⟨y,hy,rfl,id⟩

theorem Step.clock_le (hs : Step s s') : s.clock ≤ s'.clock := by
  cases hs <;> first | exact le_refl _ | exact Nat.le_succ _

/-- A committed transaction stays as it is. -/
theorem Inv.committed_step (h : Inv s) (hs : Step s s') (hc : s.Committed t c) :
    s'.Committed t c := by
  obtain ⟨x,hx,hp⟩ := hc
  refine ⟨x,?_,hp⟩
  rcases hs.txns_cases with htxns | ⟨htxns,-⟩ | ⟨u,z,z',hz,hun,htxns,-⟩
  · rw [htxns,hx]
  · rw [htxns,setTxn_of_ne (h.clock.ne_nextId hx),hx]
  rw [htxns,setTxn_of_ne,hx]
  rintro rfl
  rw [hx] at hz
  cases hz
  exact hun.not_committed c hp

/-- The mark of a committed transaction stays. -/
theorem Inv.deleter_step (h : Inv s) (hs : Step s s') (hc : s.Committed t c)
    (hd : s.deleter r = some t) : s'.deleter r = some t := by
  have hlim := (h.deletes.marked hd).1
  have hle := h.inserts.limit_le
  cases hs with
  | append =>
    show (if s.count ≤ r then none else s.deleter r) = some t
    rw [if_neg (by omega)]
    exact hd
  | @delete u v z slots hz hphase hne hslots =>
    show s.markDeleted u v slots r = some t
    unfold markDeleted
    rw [if_neg]
    · exact hd
    intro hr
    obtain ⟨i,hi,he⟩ := mem_map.mp hr
    have hfree := (freshRows_spec.2 i hi).2.2
    rw [he,hd] at hfree
    simp at hfree
  | @stamp u z goal e todo hz hphase =>
    show s.unmark goal e r = some t
    unfold unmark
    cases goal with
    | rollback =>
      dsimp only
      rw [if_neg]
      · exact hd
      intro hr
      have hmine := h.deletes.deleter_of_mem hz (h.deletes.todo hz hphase (mem_cons_self)) hr
      rw [hd] at hmine
      cases hmine
      obtain ⟨x,hx,hp⟩ := hc
      rw [hx] at hz
      cases hz
      rw [hp] at hphase
      cases hphase
    | _ => exact hd
  | _ => exact hd

theorem Inv.settled_run (h : Inv s) (hr : Run s s') (hc : s.Committed t c)
    (hd : s.deleter r = some t) : s'.Committed t c ∧ s'.deleter r = some t := by
  induction hr with
  | refl => exact ⟨hc,hd⟩
  | tail hrun hs ih =>
    have h' := inv_run h hrun
    exact ⟨h'.committed_step hs ih.1,h'.deleter_step hs ih.1 ih.2⟩

theorem run_clock_le (hr : Run s s') : s.clock ≤ s'.clock := by
  induction hr with
  | refl => exact le_refl _
  | tail _ hs ih => exact ih.trans hs.clock_le

theorem run_origin (hr : Run s s') (hy : s'.txns t = some y) (hun : y.phase.Unfinished) :
    (∃ x, s.txns t = some x ∧ y.startTime = x.startTime ∧ x.phase.Unfinished) ∨
      s.clock ≤ y.startTime := by
  induction hr generalizing y with
  | refl => exact inl ⟨y,hy,rfl,hun⟩
  | tail hrun hs ih =>
    rcases hs.origin hy with ⟨z,hz,hstart,hzun⟩ | ⟨-,hstart,-⟩
    · rw [hstart]
      exact ih hz (hzun hun)
    · right
      rw [hstart]
      exact run_clock_le hrun

/-- The list of active transactions holds the unfinished ones, and none of them
started before the recorded lowest start time. -/
structure Tracks (tm : DuckTransactionManager) (s : History) : Prop where
  clock : tm.currentStartTimestamp = s.clock
  ids : tm.currentTransactionId = s.nextId
  unique : (tm.activeTransactions.map (·.transactionId)).Nodup
  past : ∀ T ∈ tm.activeTransactions, T.transactionId < s.nextId ∧ T.startTime < s.clock
  active : ∀ {t x}, s.txns t = some x → x.phase.Unfinished →
    ∃ T ∈ tm.activeTransactions, T.transactionId = t ∧ T.startTime = x.startTime
  lowest : ∀ T ∈ tm.activeTransactions, tm.lowestActiveStart ≤ T.startTime

theorem tracks_initial {start : Nat} (hn : n ≤ rowGroupSize) :
    Tracks .initial (History.initial { start := start } n) := by
  have hinv := inv_initial (loaded_new hn : Loaded { start := start } n)
  refine ⟨rfl,rfl,nodup_nil,by simp [DuckTransactionManager.initial],?_,
    by simp [DuckTransactionManager.initial]⟩
  intro t x hx hun
  have ht := hinv.clock.ne_zero hx hun
  have : (if t = 0 then _ else none) = some x := hx
  rw [if_neg ht] at this
  cases this

theorem Tracks.begin (h : Tracks tm s) (hs : Step s s') (hid : s'.nextId ≠ s.nextId)
    (htm : tm.startTransaction = some tm') : Tracks tm' s' := by
  have hstep := hs
  cases hs
  case begin hlock hclock hnext =>
    unfold DuckTransactionManager.startTransaction at htm
    split at htm
    case isTrue => cases htm
    obtain rfl := Option.some.inj htm
    refine ⟨?clock,?ids,?unique,?past,?active,?lowest⟩
    case clock =>
      dsimp only
      unfold Transaction.increment transactionIdStart at *
      have := h.clock
      omega
    case ids =>
      dsimp only
      unfold Transaction.increment notDeletedId at *
      have := h.ids
      omega
    case unique =>
      rw [map_append,nodup_append]
      refine ⟨h.unique,nodup_singleton _,?_⟩
      intro i hi j hj he
      obtain ⟨T,hT,rfl⟩ := mem_map.mp hi
      have := (h.past T hT).1
      have := h.ids
      simp at hj
      omega
    case past =>
      intro T hT
      dsimp only
      rcases mem_append.mp hT with hT | hT
      · have := h.past T hT
        omega
      · rw [mem_singleton.mp hT,h.ids,h.clock]
        exact ⟨Nat.lt_succ_self _,Nat.lt_succ_self _⟩
    case active =>
      intro t x hx hun
      rcases setTxn_cases hx with ⟨rfl,rfl⟩ | ⟨-,hx⟩
      · exact ⟨_,mem_append_right _ (mem_singleton_self _),h.ids,h.clock⟩
      · obtain ⟨T,hT,he⟩ := h.active hx hun
        exact ⟨T,mem_append_left _ hT,he⟩
    case lowest =>
      intro T hT
      dsimp only
      cases hl : tm.activeTransactions with
      | nil =>
        rw [hl] at hT
        simp [mem_singleton.mp hT]
      | cons T' rest =>
        have hT' : T' ∈ tm.activeTransactions := by simp [hl]
        rcases mem_append.mp hT with hT | hT
        · simpa using h.lowest T hT
        · -- the new start time is above all earlier ones
          have hlow := h.lowest T' hT'
          have hpast := (h.past T' hT').2
          rw [mem_singleton.mp hT,h.clock]
          simp
          omega
  all_goals exact absurd rfl hid

theorem Tracks.remove (h : Tracks tm s) (hs : Step s s') (ht : s.Unfinished t)
    (ht' : ¬ s'.Unfinished t)
    (htm : tm.removeTransaction t changesMade currentQuery = some (tm', cleaned)) :
    Tracks tm' s' := by
  obtain ⟨current,k,hrem⟩ := Transaction.removeTransaction_cases htm
  -- a step that finishes a transaction starts none and draws no number
  have hnext : s'.nextId = s.nextId ∧ s'.clock = s.clock := by
    cases hs with
    | begin => exact absurd (ht.setTxn rfl (by trivial)) ht'
    | startCommit => exact absurd (ht.setTxn rfl (by trivial)) ht'
    | _ => exact ⟨rfl,rfl⟩
  have hmem : ∀ T, T ∈ tm'.activeTransactions ↔
      T ∈ tm.activeTransactions ∧ T.transactionId ≠ t := by
    intro T
    rw [hrem.active,mem_eraseIdx_iff_getElem?]
    constructor
    · rintro ⟨i,hne,hi⟩
      refine ⟨mem_of_getElem? hi,fun he => hne ?_⟩
      have hlt : i < (tm.activeTransactions.map (·.transactionId)).length := by
        simpa using (List.getElem?_eq_some_iff.mp hi).1
      apply (getElem?_inj hlt h.unique).mp
      simp [hi,hrem.found,hrem.id,he]
    · rintro ⟨hT,hne⟩
      obtain ⟨i,hi⟩ := mem_iff_getElem?.mp hT
      refine ⟨i,?_,hi⟩
      rintro rfl
      rw [hrem.found] at hi
      cases hi
      exact hne hrem.id
  refine ⟨?clock,?ids,?unique,?past,?active,?lowest⟩
  case clock =>
    rw [hrem.clock,h.clock,hnext.2]
  case ids =>
    rw [hrem.ids,h.ids,hnext.1]
  case unique =>
    rw [hrem.active]
    exact h.unique.sublist ((eraseIdx_sublist _ _).map _)
  case past =>
    intro T hT
    rw [hnext.1,hnext.2]
    exact h.past T ((hmem T).mp hT).1
  case active =>
    intro u x hx hun
    have hne : u ≠ t := fun he => ht' ⟨x,he ▸ hx,hun⟩
    rcases hs.origin hx with ⟨z,hz,hstart,hzun⟩ | ⟨-,-,hid⟩
    · obtain ⟨T,hT,hid,hTs⟩ := h.active hz (hzun hun)
      exact ⟨T,(hmem T).mpr ⟨hT,hid ▸ hne⟩,hid,by rw [hTs,hstart]⟩
    · exact absurd hnext.1 hid
  case lowest =>
    intro T hT
    obtain ⟨hT,hne⟩ := (hmem T).mp hT
    exact hrem.lowest T hT hne

theorem Tracks.other (h : Tracks tm s) (hs : Step s s') (hid : s'.nextId = s.nextId)
    (t commitId : Nat) :
    Tracks { tm.updateActive t fun T => { T with commitId := commitId } with
      currentStartTimestamp := s'.clock } s' := by
  have hmem : ∀ T ∈ (tm.updateActive t fun T => { T with commitId := commitId }).activeTransactions,
      ∃ T' ∈ tm.activeTransactions, T.transactionId = T'.transactionId ∧
        T.startTime = T'.startTime := by
    intro T hT
    obtain ⟨T',hT',rfl⟩ := mem_map.mp hT
    exact ⟨T',hT',by split <;> exact ⟨rfl,rfl⟩⟩
  refine ⟨rfl,h.ids.trans hid.symm,?unique,?past,?active,?lowest⟩
  case unique =>
    have hids : (tm.updateActive t fun T => { T with commitId := commitId }).activeTransactions.map
        (·.transactionId) = tm.activeTransactions.map (·.transactionId) := by
      simp only [updateActive,map_map]
      apply map_congr_left
      intro T _
      dsimp
      split <;> rfl
    exact hids ▸ h.unique
  case past =>
    intro T hT
    obtain ⟨T',hT',he,he'⟩ := hmem T hT
    have hle := hs.clock_le
    have := h.past T' hT'
    omega
  case active =>
    intro u x hx hun
    rcases hs.origin hx with ⟨z,hz,hstart,hzun⟩ | ⟨-,-,hid'⟩
    · obtain ⟨T,hT,he,he'⟩ := h.active hz (hzun hun)
      refine ⟨_,mem_map_of_mem hT,?_⟩
      split <;> exact ⟨he,he'.trans hstart.symm⟩
    · exact absurd hid hid'
  case lowest =>
    intro T hT
    obtain ⟨T',hT',-,he⟩ := hmem T hT
    exact he ▸ h.lowest T' hT'

theorem Tracked.tracks {start n : Nat} (hn : n ≤ rowGroupSize) (h : Tracked start n s tm) :
    Tracks tm s := by
  induction h with
  | initial => exact tracks_initial hn
  | begin _ hs hid htm ih => exact ih.begin hs hid htm
  | remove _ hs ht ht' htm ih => exact ih.remove hs ht ht' htm
  | other _ hs hid _ t commitId ih => exact ih.other hs hid t commitId

/-- What draining the lock leaves as it is, seen from row `r`. -/
structure Keeps (r : Nat) (s s' : History) : Prop where
  run : Run s s'
  inserter : s'.inserter r = s.inserter r
  deleter : s'.deleter r = s.deleter r ∨ s'.deleter r = none
  limit : r < s.limit → r < s'.limit
  clock : s'.clock = s.clock
  nextId : s'.nextId = s.nextId
  committed : ∀ {u c}, s'.Committed u c → s.Committed u c

theorem Keeps.refl (r : Nat) (s : History) : Keeps r s s :=
  ⟨.refl,rfl,inl rfl,id,rfl,rfl,id⟩

theorem Keeps.trans (h : Keeps r s₁ s₂) (h' : Keeps r s₂ s₃) : Keeps r s₁ s₃ := by
  refine ⟨h.run.trans h'.run,h'.inserter.trans h.inserter,?_,h'.limit ∘ h.limit,
    h'.clock.trans h.clock,h'.nextId.trans h.nextId,fun hc => h.committed (h'.committed hc)⟩
  rcases h'.deleter with hd | hd
  · rw [hd]
    exact h.deleter
  · exact inr hd

/-- Moving one transaction to a phase that is not a commit. -/
theorem Keeps.move (hs : Step s s') (htxns : s'.txns = setTxn s.txns t x')
    (hp : ∀ c, x'.phase ≠ .committed c) (hins : s'.inserter = s.inserter)
    (hdel : s'.deleter r = s.deleter r ∨ s'.deleter r = none) (hcount : s'.count = s.count)
    (hpend : s'.pending = s.pending) (hclock : s'.clock = s.clock) (hid : s'.nextId = s.nextId) :
    Keeps r s s' := by
  refine ⟨.single hs,by rw [hins],hdel,?_,hclock,hid,?_⟩
  · unfold History.limit
    rw [hpend,hcount]
    exact id
  intro u c hc
  obtain ⟨y,hy,hph⟩ := hc
  rw [htxns] at hy
  rcases setTxn_cases hy with ⟨-,hy⟩ | ⟨-,hy⟩
  · rw [hy] at hph
    exact absurd hph (hp c)
  · exact ⟨y,hy,hph⟩

/-- All undo entries of a revert or a rollback can be handled. -/
theorem drain_entries (r : Nat) (hx : s.txns t = some x) (hp : x.phase = .stamping goal todo) :
    ∃ s', Keeps r s s' ∧ s'.txns t = some { x with phase := .stamping goal [] } ∧
      s'.pending = s.pending := by
  induction todo generalizing s x with
  | nil =>
    refine ⟨s,.refl r s,?_,rfl⟩
    rw [hx,← hp]
  | cons e todo ih =>
    have hs : Step s _ := .stamp hx hp
    have hdel : s.unmark goal e r = s.deleter r ∨ s.unmark goal e r = none := by
      unfold unmark
      cases goal with
      | rollback =>
        dsimp only
        split
        · exact inr rfl
        · exact inl rfl
      | _ => exact inl rfl
    have hkeep := Keeps.move hs rfl (fun c hc => by cases hc) rfl hdel rfl rfl rfl rfl
    obtain ⟨s',h1,h2,h3⟩ := ih (s := { s with
      manager := s.manager.commitDelete e.vectorIdx (goal.stampId t) e.rows
      deleter := s.unmark goal e
      txns := setTxn s.txns t { x with phase := .stamping goal todo } })
      (x := { x with phase := .stamping goal todo }) (setTxn_self _ _ _) rfl
    exact ⟨s',hkeep.trans h1,h2,h3⟩

/-- A rollback can be finished. -/
theorem Keeps.drain_rollback (hk : Keeps r s₀ s) (hx : s.txns t = some x)
    (hp : x.phase = .stamping .rollback todo) : ∃ s', Keeps r s₀ s' ∧ s'.lock = none := by
  obtain ⟨s₁,hk₁,hx₁,-⟩ := drain_entries r hx hp
  -- the append of the transaction is reverted first, if it has one
  obtain ⟨s₂,hk₂,hx₂,hp₂⟩ : ∃ s₂, Keeps r s₁ s₂ ∧
      s₂.txns t = some { x with phase := .stamping .rollback [] } ∧
      ∀ p, s₂.pending = some p → p.owner ≠ t := by
    by_cases hown : ∃ p, s₁.pending = some p ∧ p.owner = t
    · obtain ⟨p,hpend,ho⟩ := hown
      have hs : Step s₁ _ := .revertAppend (t := t) (a := p.firstRow) hx₁
        (fun c todo hc => by cases hc) (by rw [hpend,← ho])
      refine ⟨_,⟨.single hs,rfl,inl rfl,?_,rfl,rfl,id⟩,hx₁,fun q hq => by cases hq⟩
      intro hlim
      rw [limit_eq hpend] at hlim
      exact hlim
    · exact ⟨s₁,.refl r s₁,hx₁,fun p hpend ho => hown ⟨p,hpend,ho⟩⟩
  have hs : Step s₂ _ := .finishRollback hx₂ rfl hp₂
  exact ⟨_,((hk.trans hk₁).trans hk₂).trans
    (Keeps.move hs rfl (fun c hc => by cases hc) rfl (inl rfl) rfl rfl rfl rfl),rfl⟩

/-- So can the revert of a commit, with the rollback that comes next. -/
theorem Keeps.drain_revert (hk : Keeps r s₀ s) (hx : s.txns t = some x)
    (hp : x.phase = .stamping (.revert c) todo) : ∃ s', Keeps r s₀ s' ∧ s'.lock = none := by
  obtain ⟨s₁,hk₁,hx₁,-⟩ := drain_entries r hx hp
  have hs : Step s₁ _ := .finishRevert hx₁ rfl
  have hk₂ : Keeps r s₁ _ :=
    Keeps.move hs rfl (fun c hc => by cases hc) rfl (inl rfl) rfl rfl rfl rfl
  exact ((hk.trans hk₁).trans hk₂).drain_rollback (setTxn_self _ _ _) rfl

/-- Whoever holds the lock can be brought to release it without committing. -/
theorem Inv.drain (h : Inv s) (r : Nat) : ∃ s', Keeps r s s' ∧ s'.lock = none := by
  cases hl : s.lock with
  | none => exact ⟨s,.refl r s,hl⟩
  | some t =>
    obtain ⟨x,hx,hst⟩ := h.clock.holder hl
    cases hp : x.phase with
    | stamping goal todo =>
      cases goal with
      | rollback => exact (Keeps.refl r s).drain_rollback hx hp
      | revert c => exact (Keeps.refl r s).drain_revert hx hp
      | commit c =>
        -- the commit throws and `RevertCommit` visits the whole undo buffer
        have hs : Step s _ := .fail x.undo hx hp (List.Subset.refl _)
          (fun r' hd _ => h.deletes.complete hx (by rw [hp]; trivial) r' hd)
        have hk : Keeps r s _ :=
          Keeps.move hs rfl (fun c hc => by cases hc) rfl (inl rfl) rfl rfl rfl rfl
        exact hk.drain_revert (setTxn_self _ _ _) rfl
    | _ =>
      rw [hp] at hst
      exact hst.elim

/-- A row that was not deleted by a committed transaction is seen by a transaction
that starts later, in some continuation. -/
theorem Inv.seen_later (h : Inv s) (hclock : s.clock < transactionIdStart)
    (hid : s.nextId < notDeletedId) (hr : r < s.limit) (hd : s.deleter r = some t)
    (hc : ∀ c, ¬ s.Committed t c) :
    ∃ s', Run s s' ∧ ∃ T, s'.IsActive T ∧ T.transactionId ≠ t ∧ s'.manager.fetch T r = true := by
  obtain ⟨s₁,hk,hlock⟩ := h.drain r
  have h₁ := inv_run h hk.run
  have hs : Step s₁ _ := .begin hlock (hk.clock ▸ hclock) (hk.nextId ▸ hid)
  have h₂ := inv_step h₁ hs
  have hT : IsActive _ ⟨s₁.nextId,s₁.clock⟩ :=
    (⟨{ startTime := s₁.clock },setTxn_self s₁.txns _ _,rfl,trivial⟩ : IsActive { s₁ with
      txns := setTxn s₁.txns s₁.nextId { startTime := s₁.clock }
      clock := s₁.clock + 1
      nextId := s₁.nextId + 1 } ⟨s₁.nextId,s₁.clock⟩)
  have hne : s₁.nextId ≠ t := by
    obtain ⟨-,x,hx,-⟩ := h.deletes.marked hd
    have ht : t ≠ 0 := by
      intro h0
      apply hc 0
      rw [h0]
      exact ⟨_,h.clock.loader,rfl⟩
    have := (h.clock.txn hx ht).2.1
    have := hk.nextId
    omega
  have hr₁ := hk.limit hr
  have hcount : r < s₁.count := by
    have := h₁.inserts.limit_le
    omega
  refine ⟨_,hk.run.tail hs,_,hT,hne,(h₂.fetch_iff hT hcount).mpr ⟨?_,?_⟩⟩
  · obtain ⟨y,hy,hph⟩ := h₁.inserts.settled r hr₁
    right
    refine ⟨_,h₁.committed_step hs ⟨y,hy,hph⟩,?_⟩
    dsimp only
    by_cases h0 : s₁.inserter r = 0
    · rw [h0,h₁.clock.loader] at hy
      cases hy
      have hph : (0 : Nat) = s₁.manager.insertedAt r := Phase.committed.inj hph
      have := h₁.clock.clock_ge
      omega
    · exact (h₁.clock.stamp hy h0 (c := s₁.manager.insertedAt r) (by rw [hph]; rfl)).2
  · intro u hu hsees
    have hu' : u = t := by
      have hu : s₁.deleter r = some u := hu
      rcases hk.deleter with he | he
      · rw [he,hd] at hu
        exact (Option.some.inj hu).symm
      · rw [he] at hu
        cases hu
    rw [hu'] at hsees
    rcases hsees with he | ⟨c,⟨y,hy,hph⟩,-⟩
    · exact hne he.symm
    · rcases setTxn_cases hy with ⟨he,-⟩ | ⟨-,hy⟩
      · exact hne he.symm
      · exact hc c (hk.committed ⟨y,hy,hph⟩)

/-- A row that the scan leaves out is invisible to everyone but its deleter, now and
in every continuation, exactly when its deleter has committed. -/
theorem omission_is_final_iff_committed {start n : Nat} (hn : n ≤ rowGroupSize) {s : History}
    {tm : DuckTransactionManager} (h : Tracked start n s tm) (hclock : s.clock < transactionIdStart)
    (hid : s.nextId < notDeletedId) {r : Nat} (hr : r < s.count)
    (hout : ¬ s.manager.ScansCommitted s.count ⟨tm.lowestActiveId, tm.lowestActiveStart⟩ r) :
    (∀ s', Run s s' → ∀ T, s'.IsActive T → s.deleter r ≠ some T.transactionId →
        s'.manager.fetch T r = false) ↔
      ∃ t c, s.deleter r = some t ∧ s.Committed t c := by
  have hinv := inv_run (inv_initial (loaded_new hn)) h.run
  have htracks := h.tracks hn
  rw [hinv.coherent.scansCommitted_iff _ hr] at hout
  -- a row that is left out has been marked by someone
  obtain ⟨t,hd⟩ : ∃ t, s.deleter r = some t := by
    cases hd : s.deleter r with
    | none => exact absurd (inr (hinv.deletes.unmarked r hr hd)) hout
    | some t => exact ⟨t,rfl⟩
  obtain ⟨hlim,x,hx,hcase⟩ := hinv.deletes.marked hd
  constructor
  · intro hinvisible
    refine ⟨t,?_⟩
    by_contra hno
    have hc : ∀ c, ¬ s.Committed t c := fun c hc => hno ⟨c,hd,hc⟩
    obtain ⟨s',hrun,T,hT,hne,hfetch⟩ := hinv.seen_later hclock hid hlim hd hc
    have hdel : s.deleter r ≠ some T.transactionId := by
      rw [hd]
      exact fun he => hne (Option.some.inj he).symm
    rw [hinvisible s' hrun T hT hdel] at hfetch
    cases hfetch
  intro hcommitted s' hrun T hT _
  obtain ⟨t',c,hd',hc⟩ := hcommitted
  rw [hd] at hd'
  cases hd'
  have hinv' := inv_run hinv hrun
  obtain ⟨hc',hd'⟩ := hinv.settled_run hrun hc hd
  have hr' : r < s'.count := by
    have h1 := (hinv'.deletes.marked hd').1
    have h2 := hinv'.inserts.limit_le
    omega
  -- the mark is a commit id below every active start time
  obtain ⟨y,hy,hph⟩ := hc
  rw [hx] at hy
  cases hy
  have hmark : s.manager.deletedAt r = c := by
    rcases hcase with ⟨-,hne⟩ | hst
    · exact absurd hph (hne c)
    · rw [hph] at hst
      exact hst.symm
  have hlt := hinv.clock.stamp_lt hx (c := c) (by rw [hph]; rfl)
  have hlow : c < tm.lowestActiveStart := by
    by_contra hge
    apply hout
    left
    rw [hmark]
    exact ⟨by dsimp only; omega,hlt⟩
  have hstart : c < T.startTime := by
    obtain ⟨z,hz,hzstart,hrunning⟩ := hT
    rw [← hzstart]
    rcases run_origin hrun hz hrunning.unfinished with ⟨w,hw,he,hun⟩ | hle
    · obtain ⟨T',hT',-,hstart⟩ := htracks.active hw hun
      have := htracks.lowest T' hT'
      omega
    by_cases ht : t = 0
    · rw [ht,hinv.clock.loader] at hx
      cases hx
      have hc0 : (0 : Nat) = c := Phase.committed.inj hph
      have := hinv.clock.clock_ge
      omega
    · have := (hinv.clock.stamp hx ht (c := c) (by rw [hph]; rfl)).2
      omega
  rw [← Bool.not_eq_true,hinv'.fetch_iff hT hr']
  intro hv
  exact hv.2 t hd' (inr ⟨c,hc',hstart⟩)

/-- Two transactions have started on a single loaded row. -/
def withTwoTransactions : History :=
  { withOneTransaction 1 with
    txns := setTxn (withOneTransaction 1).txns (transactionIdStart + 1) { startTime := 3 }
    clock := 4
    nextId := transactionIdStart + 2 }

/-- The first of them has deleted the row. -/
def withOpenDelete : History :=
  { withTwoTransactions with
    manager := (withTwoTransactions.manager.deleteRows 0 transactionIdStart [0]).1
    deleter := withTwoTransactions.markDeleted transactionIdStart 0 [0]
    txns := setTxn withTwoTransactions.txns transactionIdStart (Txn.afterDelete { startTime := 2 } 0
      (withTwoTransactions.manager.deleteRows 0 transactionIdStart [0]).2) }

/-- The transaction manager after the first start. -/
def oneActive : DuckTransactionManager where
  currentStartTimestamp := 3
  currentTransactionId := transactionIdStart + 1
  lowestActiveId := transactionIdStart
  lowestActiveStart := 2
  activeTransactions := [⟨transactionIdStart, 2, 0, Transaction.maximumQueryId, 0⟩]
  recentlyCommitted := []
  oldTransactions := []

/-- The transaction manager after the second one. -/
def twoActive : DuckTransactionManager :=
  { oneActive with
    currentStartTimestamp := 4
    currentTransactionId := transactionIdStart + 2
    activeTransactions := oneActive.activeTransactions ++
      [⟨transactionIdStart + 1, 3, 0, Transaction.maximumQueryId, 0⟩] }

theorem oneActive_tracked : Tracked 0 1 (withOneTransaction 1) oneActive :=
  .begin .initial (.begin rfl (by decide) (by decide)) (Nat.succ_ne_self _) rfl

theorem withOpenDelete_tracked : Tracked 0 1 withOpenDelete twoActive := by
  have h2 : Tracked 0 1 withTwoTransactions twoActive :=
    .begin oneActive_tracked (.begin rfl (by decide) (by decide)) (Nat.succ_ne_self _) rfl
  have hx : withTwoTransactions.txns transactionIdStart = some { startTime := 2 } := by
    simp [withTwoTransactions,withOneTransaction,setTxn]
  exact .other h2 (.delete (v := 0) hx rfl (by decide : [0] ≠ []) (by decide)) rfl
    (fun t ht => ht.setTxn rfl (afterDelete_running rfl _ _).unfinished) 0 0

instance decidableScansCommitted (m : RowVersionManager) (n : Nat) (lowest : TransactionData)
    (r : Nat) : Decidable (m.ScansCommitted n lowest r) :=
  inferInstanceAs (Decidable (_ ∈ _))

/-- The transaction manager in the commit of the first one, and after it. -/
def oneCommitting : DuckTransactionManager :=
  { oneActive with
    currentStartTimestamp := 4
    activeTransactions := [⟨transactionIdStart, 2, 3, Transaction.maximumQueryId, 0⟩] }

def noneActive : DuckTransactionManager :=
  { oneCommitting with
    lowestActiveId := Transaction.maxTransactionId
    lowestActiveStart := transactionIdStart
    activeTransactions := [] }

/-- A transaction that deletes the only row and commits. -/
theorem exists_committedDelete : ∃ s, Tracked 0 1 s noneActive ∧ s.clock < transactionIdStart ∧
    s.nextId < notDeletedId ∧ 0 < s.count ∧
    ¬ s.manager.ScansCommitted s.count ⟨noneActive.lowestActiveId, noneActive.lowestActiveStart⟩ 0 ∧
    s.deleter 0 = some transactionIdStart ∧ s.Committed transactionIdStart 3 := by
  have hx : (withOneTransaction 1).txns transactionIdStart = some { startTime := 2 } := by
    simp [withOneTransaction]
  have h2 := Tracked.other oneActive_tracked
    (.delete (v := 0) hx rfl (by decide : [0] ≠ []) (by decide)) rfl
    (fun t ht => ht.setTxn rfl (afterDelete_running rfl _ _).unfinished) 0 0
  have h3 := Tracked.other h2 (.startCommit (setTxn_self _ _ _) rfl rfl (by decide)) rfl
    (fun t ht => ht.setTxn rfl (by trivial)) transactionIdStart 3
  have h4 : Tracked 0 1 _ oneCommitting := Tracked.other h3 (.stamp (setTxn_self _ _ _) rfl) rfl
    (fun t ht => ht.setTxn rfl (by trivial)) 0 0
  have h5 := Tracked.remove h4 (.finishCommit (setTxn_self _ _ _) rfl (by decide))
    ⟨⟨2,[⟨0,[0]⟩],.stamping (.commit 3) []⟩,rfl,trivial⟩
    (not_unfinished (x := ⟨2,[⟨0,[0]⟩],.committed 3⟩) rfl id)
    (rfl : oneCommitting.removeTransaction transactionIdStart true 0 = some (noneActive, _))
  exact ⟨_,h5,by decide,by decide,by decide,by decide,by decide,
    ⟨2,[⟨0,[0]⟩],.committed 3⟩,rfl,rfl⟩

/-- With a running deleter the row is not invisible for good, with a committed one it is. -/
theorem omission_withOpenDelete :
    ((∀ s', Run withOpenDelete s' → ∀ T, s'.IsActive T →
        withOpenDelete.deleter 0 ≠ some T.transactionId → s'.manager.fetch T 0 = false) ↔
      ∃ t c, withOpenDelete.deleter 0 = some t ∧ withOpenDelete.Committed t c) ∧
    ∃ s, Tracked 0 1 s noneActive ∧ s.Committed transactionIdStart 3 ∧
      ∀ s', Run s s' → ∀ T, s'.IsActive T → s.deleter 0 ≠ some T.transactionId →
        s'.manager.fetch T 0 = false := by
  obtain ⟨s,h,hclock,hid,hr,hout,hd,hc⟩ := exists_committedDelete
  refine ⟨?_,s,h,hc,?_⟩
  · exact omission_is_final_iff_committed (by decide) withOpenDelete_tracked (by decide) (by decide)
      (by decide) (by decide)
  · exact (omission_is_final_iff_committed (by decide) h hclock hid hr hout).mpr ⟨_,3,hd,hc⟩

/-- The row that a running transaction has deleted is left out although another
running transaction sees it. -/
theorem scan_omits_visible_row :
    Tracked 0 1 withOpenDelete twoActive ∧
      ¬ withOpenDelete.manager.ScansCommitted withOpenDelete.count
        ⟨twoActive.lowestActiveId, twoActive.lowestActiveStart⟩ 0 ∧
      withOpenDelete.IsActive ⟨transactionIdStart + 1, 3⟩ ∧
      withOpenDelete.deleter 0 = some transactionIdStart ∧
      withOpenDelete.manager.fetch ⟨transactionIdStart + 1, 3⟩ 0 = true := by
  refine ⟨withOpenDelete_tracked,by decide,⟨{ startTime := 3 },?_,rfl,trivial⟩,by decide,by decide⟩
  simp [withOpenDelete,withTwoTransactions,setTxn]

end History

end PredTrans.Storage
