import PredTrans.Transaction.Manager

/-!
Version garbage collection never removes what a snapshot needs: a transaction is cleaned up only
when its commit id is below the start time of every active transaction and of all later ones.
Nothing is kept longer than that.
-/

namespace PredTrans.Transaction

open PredTrans.Storage (transactionIdStart)
open List
open DuckTransactionManager

variable {m m' : DuckTransactionManager} {cleaned now : List DuckTransaction} {transactionId : Nat}

theorem scanActive_lowest (transactionId : Nat) (l : List DuckTransaction) (i : Nat)
    (found : ActiveScan) :
    (scanActive transactionId l i found).lowestStartTime ≤ found.lowestStartTime ∧
    ∀ t ∈ l, t.transactionId ≠ transactionId →
      (scanActive transactionId l i found).lowestStartTime ≤ t.startTime := by
  induction l generalizing i found with
  | nil => simp [scanActive]
  | cons x rest ih =>
    rw [scanActive]
    generalize hnext : ite (x.transactionId = transactionId) _ _ = next
    obtain ⟨hle,hrest⟩ := ih (i + 1) next
    have hfound : next.lowestStartTime ≤ found.lowestStartTime := by
      rw [← hnext]
      split <;> simp
    refine ⟨hle.trans hfound,?_⟩
    intro t ht hne
    rcases mem_cons.mp ht with rfl | ht
    · apply hle.trans
      rw [← hnext,if_neg hne]
      exact Nat.min_le_right _ _
    · exact hrest t ht hne

theorem scanActive_tIndex (transactionId : Nat) (l : List DuckTransaction) (i : Nat)
    (found : ActiveScan) :
    (scanActive transactionId l i found).tIndex = found.tIndex ∨
    ∃ j t, l[j]? = some t ∧ t.transactionId = transactionId ∧
      (scanActive transactionId l i found).tIndex = i + j := by
  induction l generalizing i found with
  | nil => exact .inl rfl
  | cons x rest ih =>
    rw [scanActive]
    generalize hnext : ite (x.transactionId = transactionId) _ _ = next
    rcases ih (i + 1) next with hkeep | ⟨j,t,hj,ht,heq⟩
    · rw [hkeep,← hnext]
      split
      case isTrue hx => exact .inr ⟨0,x,rfl,hx,rfl⟩
      case isFalse => exact .inl rfl
    · exact .inr ⟨j + 1,t,hj,ht,by omega⟩

/-- What a removal does: the transaction leaves the active ones, it may join the recently
committed ones, and the oldest of these are cleaned up. -/
structure Removed (m m' : DuckTransactionManager) (transactionId : Nat)
    (now : List DuckTransaction) (current : DuckTransaction) (k : Nat) : Prop where
  found : m.activeTransactions[k]? = some current
  id : current.transactionId = transactionId
  clock : m'.currentStartTimestamp = m.currentStartTimestamp
  ids : m'.currentTransactionId = m.currentTransactionId
  active : m'.activeTransactions = m.activeTransactions.eraseIdx k
  lowest : ∀ t ∈ m.activeTransactions, t.transactionId ≠ transactionId →
    m'.lowestActiveStart ≤ t.startTime
  recent : now ++ m'.recentlyCommitted = m.recentlyCommitted ∨
    current.commitId ≠ 0 ∧ now ++ m'.recentlyCommitted = m.recentlyCommitted ++ [current]
  old : ∀ c ∈ now, c.commitId < m'.lowestActiveStart

section

variable (m : DuckTransactionManager) (lowestStartTime currentQuery : Nat)

theorem cleanUp_recent :
    (m.cleanUp lowestStartTime currentQuery).2 ++
      (m.cleanUp lowestStartTime currentQuery).1.recentlyCommitted = m.recentlyCommitted := by
  have htake := takeWhile_append_dropWhile
    (p := fun t : DuckTransaction => decide (t.commitId < lowestStartTime))
    (l := m.recentlyCommitted)
  have hdrop := congrArg (List.drop (m.recentlyCommitted.takeWhile fun t =>
    decide (t.commitId < lowestStartTime)).length) htake
  rw [drop_left] at hdrop
  simp only [cleanUp]
  rw [← hdrop]
  exact htake

theorem cleanUp_old :
    ∀ c ∈ (m.cleanUp lowestStartTime currentQuery).2, c.commitId < lowestStartTime := by
  intro c hc
  have := mem_takeWhile_imp hc
  simpa using this

theorem parkRemoved_recent (current : DuckTransaction) (changesMade : Bool) (currentQuery : Nat) :
    (m.parkRemoved current changesMade currentQuery).recentlyCommitted = m.recentlyCommitted ∨
    current.commitId ≠ 0 ∧ (m.parkRemoved current changesMade currentQuery).recentlyCommitted =
      m.recentlyCommitted ++ [current] := by
  unfold parkRemoved
  split
  · split
    case isTrue h => exact .inr ⟨h,rfl⟩
    case isFalse => exact .inl rfl
  · exact .inl rfl

/-- Parking the transaction and freeing memory leave the counters and the other lists alone. -/
theorem parkRemoved_other (current : DuckTransaction) (changesMade : Bool) (currentQuery : Nat) :
    let parked := m.parkRemoved current changesMade currentQuery
    parked.currentStartTimestamp = m.currentStartTimestamp ∧
    parked.currentTransactionId = m.currentTransactionId ∧
    parked.lowestActiveStart = m.lowestActiveStart ∧
    parked.activeTransactions = m.activeTransactions := by
  unfold parkRemoved
  split
  · split <;> exact ⟨rfl,rfl,rfl,rfl⟩
  · exact ⟨rfl,rfl,rfl,rfl⟩

theorem freeOld_eq (lowestActiveQuery : Nat) :
    ∃ old, m.freeOld lowestActiveQuery = { m with oldTransactions := old } := by
  unfold freeOld
  split
  · exact ⟨_,rfl⟩
  · exact ⟨_,rfl⟩

end

theorem removeTransaction_cases
    (h : m.removeTransaction transactionId changesMade currentQuery = some (m', now)) :
    ∃ current k, Removed m m' transactionId now current k := by
  unfold removeTransaction at h
  obtain ⟨_,hlow⟩ := scanActive_lowest transactionId m.activeTransactions 0
    ⟨m.activeTransactions.length,transactionIdStart,maxTransactionId,maximumQueryId⟩
  have hindex := scanActive_tIndex transactionId m.activeTransactions 0
    ⟨m.activeTransactions.length,transactionIdStart,maxTransactionId,maximumQueryId⟩
  revert h hlow hindex
  generalize scanActive transactionId m.activeTransactions 0
    ⟨m.activeTransactions.length,transactionIdStart,maxTransactionId,maximumQueryId⟩ = found
  intro h hlow hindex
  dsimp only at h
  split at h
  case h_1 => cases h
  case h_2 current hcurrent =>
    obtain ⟨start,hstart⟩ : ∃ start, start = { m with
      lowestActiveStart := found.lowestStartTime
      lowestActiveId := found.lowestTransactionId } := ⟨_,rfl⟩
    obtain ⟨hclock,hids,hlowest,hactive⟩ :=
      parkRemoved_other start current changesMade currentQuery
    have hparked := parkRemoved_recent start current changesMade currentQuery
    rw [← hstart] at h
    generalize start.parkRemoved current changesMade currentQuery = parked at *
    obtain ⟨erased,herased⟩ : ∃ erased, erased = { parked with
      activeTransactions := parked.activeTransactions.eraseIdx found.tIndex } := ⟨_,rfl⟩
    obtain ⟨old,hfree⟩ := freeOld_eq (erased.cleanUp found.lowestStartTime currentQuery).1
      found.lowestActiveQuery
    have hrecent := cleanUp_recent erased found.lowestStartTime currentQuery
    have hold := cleanUp_old erased found.lowestStartTime currentQuery
    rw [← herased,hfree] at h
    subst hstart herased
    obtain ⟨rfl,rfl⟩ := Prod.mk.inj (Option.some.inj h)
    refine ⟨current,found.tIndex,hcurrent,?_,hclock,hids,?_,?_,?_,?_⟩
    · rcases hindex with hkeep | ⟨j,t,hj,ht,heq⟩
      · rw [hkeep] at hcurrent
        simp at hcurrent
      · rw [heq,zero_add,hj] at hcurrent
        exact (Option.some.inj hcurrent) ▸ ht
    · change parked.activeTransactions.eraseIdx _ = _
      rw [hactive]
    · intro t ht hne
      rw [hlowest]
      exact hlow t ht hne
    · rcases hparked with hsame | ⟨hne,hpush⟩
      · exact .inl (hrecent.trans hsame)
      · exact .inr ⟨hne,hrecent.trans hpush⟩
    · intro c hc
      rw [hlowest]
      exact hold c hc

/-- The ids of the transactions whose undo buffer is kept or has been cleaned up. -/
def trackedIds (m : DuckTransactionManager) (cleaned : List DuckTransaction) : Multiset Nat :=
  m.activeTransactions.map (·.transactionId) + m.recentlyCommitted.map (·.transactionId) +
    cleaned.map (·.transactionId)

/-- All order facts of the manager's lists, with the transactions cleaned up so far. -/
structure Ordered (m : DuckTransactionManager) (cleaned : List DuckTransaction) : Prop where
  unique : (trackedIds m cleaned).Nodup
  fresh : ∀ i ∈ trackedIds m cleaned, i < m.currentTransactionId
  started : ∀ t ∈ m.activeTransactions, t.startTime < m.currentStartTimestamp
  committed : ∀ t ∈ m.recentlyCommitted, t.commitId < m.currentStartTimestamp
  ascending : m.recentlyCommitted.Pairwise fun a b => a.commitId < b.commitId
  lowest : ∀ t ∈ m.activeTransactions, m.lowestActiveStart ≤ t.startTime
  past : ∀ c ∈ cleaned, c.commitId < m.currentStartTimestamp
  needed : ∀ c ∈ cleaned, ∀ t ∈ m.activeTransactions, c.commitId < t.startTime

/-- The counters do not overflow: a timestamp is drawn for a start, of which there are at most
`TRANSACTION_ID_START`, or for the commit of a started transaction. -/
structure Counted (m : DuckTransactionManager) : Prop where
  starts : m.activeTransactions.length + 2 ≤ m.currentStartTimestamp
  clock : m.currentStartTimestamp + m.activeTransactions.length ≤ 2 * transactionIdStart
  ids : m.currentTransactionId ≤ transactionIdStart + m.currentStartTimestamp

structure Inv (m : DuckTransactionManager) (cleaned : List DuckTransaction) : Prop where
  ordered : Ordered m cleaned
  counted : Counted m
  running : ∀ t ∈ m.activeTransactions, t.commitId = 0

theorem increment_eq (h : n ≤ 3 * transactionIdStart) : increment n = n + 1 := by
  unfold increment transactionIdStart at *
  omega

theorem inv_initial : Inv initial [] := by
  refine ⟨⟨?_,?_,?_,?_,?_,?_,?_,?_⟩,⟨?_,?_,?_⟩,?_⟩ <;>
    simp [trackedIds,initial,transactionIdStart]

theorem trackedIds_start (started : DuckTransaction)
    (h : m'.activeTransactions = m.activeTransactions ++ [started])
    (hrecent : m'.recentlyCommitted = m.recentlyCommitted) (cleaned : List DuckTransaction) :
    trackedIds m' cleaned = started.transactionId ::ₘ trackedIds m cleaned := by
  simp only [trackedIds,h,hrecent,map_append,map_cons,map_nil,
    ← Multiset.coe_add,← Multiset.singleton_add]
  rw [show (([started.transactionId] : List Nat) : Multiset Nat) = {started.transactionId} from rfl]
  ac_rfl

theorem inv_start (h : Inv m cleaned) : Inv (m.startTransaction.getD m) cleaned := by
  unfold startTransaction
  split
  · exact h
  case isFalse hspace =>
    obtain ⟨hordered,⟨hstarts,hclock,hids⟩,hrunning⟩ := h
    have htime : increment m.currentStartTimestamp = m.currentStartTimestamp + 1 :=
      increment_eq (by omega)
    have hid : increment m.currentTransactionId = m.currentTransactionId + 1 :=
      increment_eq (by omega)
    have htracked := fun next => @trackedIds_start m next
      ⟨m.currentTransactionId,m.currentStartTimestamp,0,maximumQueryId,0⟩
    simp only [Option.getD_some,htime,hid]
    refine ⟨⟨?unique,?fresh,?started,?committed,hordered.ascending,?lowest,?past,?needed⟩,
      ⟨?starts,?clock,?ids⟩,?running⟩
    case unique =>
      rw [htracked _ ?_ ?_,Multiset.nodup_cons]
      · exact ⟨fun hmem => lt_irrefl _ (hordered.fresh _ hmem),hordered.unique⟩
      · rfl
      · rfl
    case fresh =>
      intro i hi
      rw [htracked _ ?_ ?_] at hi
      · rcases Multiset.mem_cons.mp hi with rfl | hi
        · exact Nat.lt_succ_self _
        · exact Nat.lt_succ_of_lt (hordered.fresh i hi)
      · rfl
      · rfl
    case started =>
      intro t ht
      rcases mem_append.mp ht with ht | ht
      · exact Nat.lt_succ_of_lt (hordered.started t ht)
      · rw [mem_singleton.mp ht]
        exact Nat.lt_succ_self _
    case committed =>
      exact fun t ht => Nat.lt_succ_of_lt (hordered.committed t ht)
    case lowest =>
      intro t ht
      rcases mem_append.mp ht with ht | ht
      · have hne : m.activeTransactions.isEmpty = false := by
          simpa using ne_nil_of_mem ht
        simpa [hne] using hordered.lowest t ht
      rw [mem_singleton.mp ht]
      -- An active transaction has the lowest start, and it started before.
      cases hactive : m.activeTransactions with
      | nil => simp
      | cons x rest =>
        have hx : x ∈ m.activeTransactions := by simp [hactive]
        simpa using (hordered.lowest x hx).trans (Nat.le_of_lt (hordered.started x hx))
    case past =>
      exact fun c hc => Nat.lt_succ_of_lt (hordered.past c hc)
    case needed =>
      intro c hc t ht
      rcases mem_append.mp ht with ht | ht
      · exact hordered.needed c hc t ht
      · rw [mem_singleton.mp ht]
        exact hordered.past c hc
    case starts =>
      simp
      omega
    case clock =>
      simp
      omega
    case ids =>
      dsimp only
      omega
    case running =>
      intro t ht
      rcases mem_append.mp ht with ht | ht
      · exact hrunning t ht
      · rw [mem_singleton.mp ht]

/-- Setting a field of an active transaction other than its numbers keeps the order facts. -/
theorem Ordered.updateActive (h : Ordered m cleaned) (transactionId : Nat)
    (hid : ∀ t, (f t).transactionId = t.transactionId)
    (hstart : ∀ t, (f t).startTime = t.startTime) :
    Ordered (m.updateActive transactionId f) cleaned := by
  have hmem : ∀ t ∈ (m.updateActive transactionId f).activeTransactions,
      ∃ x ∈ m.activeTransactions, t.startTime = x.startTime := by
    intro t ht
    obtain ⟨x,hx,rfl⟩ := mem_map.mp ht
    refine ⟨x,hx,?_⟩
    split
    · exact hstart x
    · rfl
  have htracked : trackedIds (m.updateActive transactionId f) cleaned = trackedIds m cleaned := by
    have hids : (m.updateActive transactionId f).activeTransactions.map (·.transactionId) =
        m.activeTransactions.map (·.transactionId) := by
      simp only [DuckTransactionManager.updateActive,map_map]
      apply map_congr_left
      intro t _
      simp
      split
      · exact hid t
      · rfl
    simp only [trackedIds,hids]
    rfl
  refine ⟨htracked ▸ h.unique,htracked ▸ h.fresh,?_,h.committed,h.ascending,?_,h.past,?_⟩
  · intro t ht
    obtain ⟨x,hx,heq⟩ := hmem t ht
    exact heq ▸ h.started x hx
  · intro t ht
    obtain ⟨x,hx,heq⟩ := hmem t ht
    exact heq ▸ h.lowest x hx
  · intro c hc t ht
    obtain ⟨x,hx,heq⟩ := hmem t ht
    exact heq ▸ h.needed c hc x hx

section

variable (hrem : Removed m m' transactionId now current k)
include hrem

theorem Removed.id_ne (h : Ordered m cleaned) (ht : t ∈ m'.activeTransactions) :
    t.transactionId ≠ transactionId := by
  have hnodup : (m.activeTransactions.map (·.transactionId)).Nodup := by
    apply Multiset.coe_nodup.mp
    apply Multiset.nodup_of_le _ h.unique
    rw [trackedIds,Multiset.add_assoc]
    exact Multiset.le_add_right _ _
  rw [hrem.active] at ht
  obtain ⟨i,hne,hi⟩ := mem_eraseIdx_iff_getElem?.mp ht
  intro heq
  apply hne
  have hlt : i < (m.activeTransactions.map (·.transactionId)).length := by
    simpa using (List.getElem?_eq_some_iff.mp hi).1
  apply (getElem?_inj hlt hnodup).mp
  simp [hi,hrem.found,hrem.id,heq]

theorem Removed.trackedIds_le (cleaned : List DuckTransaction) :
    trackedIds m' (cleaned ++ now) ≤ trackedIds m cleaned := by
  obtain ⟨hlen,hget⟩ := List.getElem?_eq_some_iff.mp hrem.found
  have hactive : (m.activeTransactions.map (·.transactionId) : Multiset Nat) =
      {current.transactionId} + (m'.activeTransactions.map (·.transactionId) : Multiset Nat) := by
    rw [hrem.active,Multiset.singleton_add,Multiset.cons_coe,Multiset.coe_eq_coe]
    have hperm := (getElem_cons_eraseIdx_perm hlen).map (·.transactionId)
    rw [hget] at hperm
    exact hperm.symm
  have hrecent : (now.map (·.transactionId) : Multiset Nat) +
      (m'.recentlyCommitted.map (·.transactionId) : Multiset Nat) ≤
        (m.recentlyCommitted.map (·.transactionId) : Multiset Nat) + {current.transactionId} := by
    rw [Multiset.coe_add,← map_append]
    rcases hrem.recent with hsame | ⟨_,hpush⟩
    · rw [hsame]
      exact Multiset.le_add_right _ _
    · rw [hpush,map_append,← Multiset.coe_add]
      exact le_rfl
  calc trackedIds m' (cleaned ++ now)
      = (m'.activeTransactions.map (·.transactionId) : Multiset Nat) +
          (cleaned.map (·.transactionId) : Multiset Nat) +
          ((now.map (·.transactionId) : Multiset Nat) +
            (m'.recentlyCommitted.map (·.transactionId) : Multiset Nat)) := by
        simp only [trackedIds,map_append,← Multiset.coe_add]
        ac_rfl
    _ ≤ (m'.activeTransactions.map (·.transactionId) : Multiset Nat) +
          (cleaned.map (·.transactionId) : Multiset Nat) +
          ((m.recentlyCommitted.map (·.transactionId) : Multiset Nat) +
            {current.transactionId}) := by gcongr
    _ = trackedIds m cleaned := by
        rw [trackedIds,hactive]
        ac_rfl

theorem Ordered.remove (h : Ordered m cleaned)
    (hcommit : current.commitId ≠ 0 → current.commitId < m.currentStartTimestamp ∧
      ∀ t ∈ m.recentlyCommitted, t.commitId < current.commitId) : Ordered m' (cleaned ++ now) := by
  have hsub : ∀ t ∈ m'.activeTransactions, t ∈ m.activeTransactions := by
    intro t ht
    rw [hrem.active] at ht
    exact mem_of_mem_eraseIdx ht
  have hlowest : ∀ t ∈ m'.activeTransactions, m'.lowestActiveStart ≤ t.startTime :=
    fun t ht => hrem.lowest t (hsub t ht) (hrem.id_ne h ht)
  have hascending : (now ++ m'.recentlyCommitted).Pairwise fun a b => a.commitId < b.commitId := by
    rcases hrem.recent with hsame | ⟨hne,hpush⟩
    · exact hsame ▸ h.ascending
    rw [hpush]
    apply pairwise_append.mpr
    refine ⟨h.ascending,pairwise_singleton _ _,?_⟩
    intro a ha b hb
    rw [mem_singleton.mp hb]
    exact (hcommit hne).2 a ha
  have hcommitted : ∀ t ∈ now ++ m'.recentlyCommitted, t.commitId < m.currentStartTimestamp := by
    rcases hrem.recent with hsame | ⟨hne,hpush⟩
    · exact hsame ▸ h.committed
    rw [hpush]
    intro t ht
    rcases mem_append.mp ht with ht | ht
    · exact h.committed t ht
    · rw [mem_singleton.mp ht]
      exact (hcommit hne).1
  refine ⟨Multiset.nodup_of_le (hrem.trackedIds_le cleaned) h.unique,?fresh,?started,?committed,
    (pairwise_append.mp hascending).2.1,hlowest,?past,?needed⟩
  case fresh =>
    intro i hi
    rw [hrem.ids]
    exact h.fresh i (Multiset.mem_of_le (hrem.trackedIds_le cleaned) hi)
  case started =>
    intro t ht
    rw [hrem.clock]
    exact h.started t (hsub t ht)
  case committed =>
    intro t ht
    rw [hrem.clock]
    exact hcommitted t (mem_append_right now ht)
  case past =>
    intro c hc
    rw [hrem.clock]
    rcases mem_append.mp hc with hc | hc
    · exact h.past c hc
    · exact hcommitted c (mem_append_left _ hc)
  case needed =>
    intro c hc t ht
    rcases mem_append.mp hc with hc | hc
    · exact h.needed c hc t (hsub t ht)
    · exact (hrem.old c hc).trans_le (hlowest t ht)

theorem Removed.length : m'.activeTransactions.length + 1 = m.activeTransactions.length := by
  obtain ⟨hlen,_⟩ := List.getElem?_eq_some_iff.mp hrem.found
  rw [hrem.active,length_eraseIdx_of_lt hlen]
  omega

end

theorem inv_rollback (h : Inv m cleaned)
    (hstep : m.rollbackTransaction transactionId changesMade currentQuery = some (m', now)) :
    Inv m' (cleaned ++ now) := by
  obtain ⟨current,k,hrem⟩ := removeTransaction_cases hstep
  obtain ⟨hstarts,hclock,hids⟩ := h.counted
  have hlen := hrem.length
  have hcurrent := h.running current (mem_of_getElem? hrem.found)
  refine ⟨h.ordered.remove hrem (fun hne => absurd hcurrent hne),⟨?_,?_,?_⟩,?_⟩
  · rw [hrem.clock]
    omega
  · rw [hrem.clock]
    omega
  · rw [hrem.clock,hrem.ids]
    exact hids
  · intro t ht
    rw [hrem.active] at ht
    exact h.running t (mem_of_mem_eraseIdx ht)

theorem inv_commit (h : Inv m cleaned)
    (hstep : m.commitTransaction transactionId failed changesMade currentQuery = some (m', now)) :
    Inv m' (cleaned ++ now) := by
  obtain ⟨hordered,⟨hstarts,hclock,hids⟩,hrunning⟩ := h
  have htime : increment m.currentStartTimestamp = m.currentStartTimestamp + 1 :=
    increment_eq (by omega)
  obtain ⟨current,k,hrem⟩ := removeTransaction_cases hstep
  have htick : Ordered { m with currentStartTimestamp := increment m.currentStartTimestamp }
      cleaned := by
    rw [htime]
    exact { hordered with
      started := fun t ht => Nat.lt_succ_of_lt (hordered.started t ht)
      committed := fun t ht => Nat.lt_succ_of_lt (hordered.committed t ht)
      past := fun c hc => Nat.lt_succ_of_lt (hordered.past c hc) }
  have hstamped := htick.updateActive transactionId
    (f := fun t => { t with commitId := if failed then 0 else m.currentStartTimestamp })
    (fun _ => rfl) (fun _ => rfl)
  have hlen := hrem.length
  simp only [updateActive,length_map] at hlen
  have hnow : m'.currentStartTimestamp = m.currentStartTimestamp + 1 := hrem.clock.trans htime
  have hnext : m'.currentTransactionId = m.currentTransactionId := hrem.ids
  refine ⟨hstamped.remove hrem ?_,⟨?_,?_,?_⟩,?_⟩
  · intro hne
    obtain ⟨x,hx,hcurrent⟩ := mem_map.mp (mem_of_getElem? hrem.found)
    have hid := hrem.id
    rw [← hcurrent] at hne hid ⊢
    split at hne
    case isFalse hother => exact absurd (hrunning x hx) hne
    case isTrue hsame =>
      rw [if_pos hsame]
      cases failed with
      | true => exact absurd rfl hne
      | false =>
        refine ⟨?_,hordered.committed⟩
        change m.currentStartTimestamp < increment m.currentStartTimestamp
        omega
  · omega
  · omega
  · omega
  · intro t ht
    have hne := hrem.id_ne hstamped ht
    rw [hrem.active] at ht
    obtain ⟨x,hx,rfl⟩ := mem_map.mp (mem_of_mem_eraseIdx ht)
    split at hne
    case isTrue hsame => exact absurd hsame hne
    case isFalse hother =>
      rw [if_neg hother]
      exact hrunning x hx

theorem inv_setActiveQuery (h : Inv m cleaned) (transactionId query : Nat) :
    Inv (m.updateActive transactionId fun t => { t with activeQuery := query }) cleaned := by
  obtain ⟨hordered,⟨hstarts,hclock,hids⟩,hrunning⟩ := h
  refine ⟨hordered.updateActive transactionId (fun _ => rfl) (fun _ => rfl),
    ⟨by simpa [updateActive] using hstarts,by simpa [updateActive] using hclock,hids⟩,?_⟩
  intro t ht
  obtain ⟨x,hx,rfl⟩ := mem_map.mp ht
  split
  · exact hrunning x hx
  · exact hrunning x hx

theorem inv_step (h : Inv m cleaned) (hstep : step m call = some (m', now)) :
    Inv m' (cleaned ++ now) := by
  cases call with
  | start =>
    obtain ⟨rfl,rfl⟩ := Prod.mk.inj (Option.some.inj hstep)
    simpa using inv_start h
  | commit transactionId failed changesMade currentQuery => exact inv_commit h hstep
  | rollback transactionId changesMade currentQuery => exact inv_rollback h hstep
  | setActiveQuery transactionId query =>
    obtain ⟨rfl,rfl⟩ := Prod.mk.inj (Option.some.inj hstep)
    simpa using inv_setActiveQuery h transactionId query

theorem inv_of_reaches (h : Reaches calls m cleaned) : Inv m cleaned := by
  induction h with
  | initial => exact inv_initial
  | call call h hstep ih => exact inv_step ih hstep

/-- In every state that calls reach, what has been cleaned up so far is below the start time of
all active transactions. The state may be that of the cleanup or any later one, so this covers the
transactions active at the cleanup and all that start later. -/
theorem cleanup_below_snapshots {calls : List Call} (h : Reaches calls m cleaned) :
    (∀ c ∈ cleaned, ∀ t ∈ m.activeTransactions, c.commitId < t.startTime) ∧
    m.recentlyCommitted.Pairwise (fun a b => a.commitId < b.commitId) ∧
    (cleaned.map (·.transactionId)).Nodup ∧
    ∀ t ∈ m.activeTransactions, m.lowestActiveStart ≤ t.startTime := by
  obtain ⟨hordered,_,_⟩ := inv_of_reaches h
  refine ⟨hordered.needed,hordered.ascending,?_,hordered.lowest⟩
  exact Multiset.nodup_of_le (Multiset.le_add_left _ _) hordered.unique

/-- A transaction commits while an older snapshot is active and is cleaned up when that one ends,
with a third transaction active. -/
theorem cleanup_below_snapshots_three : ∃ m cleaned,
    Reaches [.start, .start, .commit (transactionIdStart + 1) false true 7, .start,
      .rollback transactionIdStart false 8] m cleaned ∧
    cleaned.map (·.commitId) = [4] ∧ m.activeTransactions.map (·.startTime) = [5] ∧
    ∀ c ∈ cleaned, ∀ t ∈ m.activeTransactions, c.commitId < t.startTime := by
  have hrun := ((((Reaches.initial.call .start rfl).call .start rfl).call
    (.commit (transactionIdStart + 1) false true 7) rfl).call .start rfl).call
      (.rollback transactionIdStart false 8) rfl
  exact ⟨_,_,hrun,rfl,rfl,(cleanup_below_snapshots hrun).1⟩

theorem scanActive_attained (transactionId : Nat) (l : List DuckTransaction) (i : Nat)
    (found : ActiveScan) :
    (scanActive transactionId l i found).lowestStartTime = found.lowestStartTime ∨
      ∃ t ∈ l, t.transactionId ≠ transactionId ∧
        t.startTime = (scanActive transactionId l i found).lowestStartTime := by
  induction l generalizing i found with
  | nil => exact .inl rfl
  | cons x l ih =>
    rw [scanActive]
    rcases ih (i + 1) _ with h | ⟨t,ht,hne,h⟩
    · rw [h]
      split
      case isTrue => exact .inl rfl
      case isFalse hx =>
        rcases min_choice found.lowestStartTime x.startTime with hmin | hmin
        · exact .inl hmin
        · exact .inr ⟨x,mem_cons_self,hx,hmin.symm⟩
    · exact .inr ⟨t,mem_cons_of_mem _ ht,hne,h⟩

theorem cleanUp_kept {lowestStartTime : Nat} (currentQuery : Nat) {c : DuckTransaction}
    (hascending : (m.cleanUp lowestStartTime currentQuery).1.recentlyCommitted.Pairwise
      fun a b => a.commitId < b.commitId)
    (hc : c ∈ (m.cleanUp lowestStartTime currentQuery).1.recentlyCommitted) :
    lowestStartTime ≤ c.commitId := by
  have hdrop := append_cancel_left ((cleanUp_recent m lowestStartTime currentQuery).trans
    takeWhile_append_dropWhile.symm)
  rw [hdrop] at hascending hc
  have hhead := head?_dropWhile_not (fun t => decide (t.commitId < lowestStartTime))
    m.recentlyCommitted
  cases hrest : m.recentlyCommitted.dropWhile fun t => decide (t.commitId < lowestStartTime) with
  | nil => simp [hrest] at hc
  | cons x rest =>
    simp only [hrest,head?_cons,decide_eq_false_iff_not,not_lt] at hhead hc hascending
    rcases mem_cons.mp hc with rfl | hc
    · exact hhead
    · exact hhead.trans (rel_of_pairwise_cons hascending hc).le

/-- What a removal keeps is not older than the oldest snapshot that is left. -/
theorem removeTransaction_needed
    (h : m.removeTransaction transactionId changesMade currentQuery = some (m', now))
    (hascending : m'.recentlyCommitted.Pairwise fun a b => a.commitId < b.commitId)
    {c : DuckTransaction} (hc : c ∈ m'.recentlyCommitted)
    (hlate : c.commitId < transactionIdStart) :
    ∃ t ∈ m'.activeTransactions, t.startTime ≤ c.commitId := by
  obtain ⟨current,k,hrem⟩ := removeTransaction_cases h
  have hlow := scanActive_attained transactionId m.activeTransactions 0
    ⟨m.activeTransactions.length,transactionIdStart,maxTransactionId,maximumQueryId⟩
  unfold removeTransaction at h
  dsimp only at h
  split at h
  case h_1 => cases h
  generalize (scanActive transactionId m.activeTransactions 0
    ⟨m.activeTransactions.length,transactionIdStart,maxTransactionId,maximumQueryId⟩) = found at *
  have hge : found.lowestStartTime ≤ c.commitId := by
    obtain ⟨rfl,-⟩ := Prod.mk.inj (Option.some.inj h)
    obtain ⟨old,hfree⟩ := freeOld_eq (cleanUp _ found.lowestStartTime currentQuery).1
      found.lowestActiveQuery
    rw [hfree] at hc hascending
    exact cleanUp_kept currentQuery hascending hc
  rcases hlow with hlow | ⟨t,ht,hne,hlow⟩
  · rw [hlow] at hge
    exact absurd hlate (not_lt.mpr hge)
  · refine ⟨t,?_,by omega⟩
    obtain ⟨j,hj⟩ := mem_iff_getElem?.mp ht
    rw [hrem.active]
    refine (mem_eraseIdx_iff_getElem? ..).mpr ⟨j,?_,hj⟩
    rintro rfl
    rw [hrem.found] at hj
    exact hne (Option.some.inj hj ▸ hrem.id)

/-- A committed transaction is kept only for the sake of an active one that started before, so none
is kept when no transaction is active. -/
theorem kept_needed {calls : List Call} (h : Reaches calls m cleaned) :
    ∀ c ∈ m.recentlyCommitted, c.commitId < transactionIdStart →
      ∃ t ∈ m.activeTransactions, t.startTime ≤ c.commitId := by
  induction h with
  | initial => simp [initial]
  | @call calls m cleaned m' now call h hstep ih =>
    have hascending := (inv_step (inv_of_reaches h) hstep).ordered.ascending
    intro c hc hlate
    cases call with
    | start =>
      obtain ⟨rfl,-⟩ := Prod.mk.inj (Option.some.inj hstep)
      unfold startTransaction at hc ⊢
      split at hc
      case isTrue hids => simpa [hids] using ih c hc hlate
      case isFalse hids =>
        obtain ⟨t,ht,hle⟩ := ih c hc hlate
        exact ⟨t,by simp [hids,ht],hle⟩
    | commit | rollback => exact removeTransaction_needed hstep hascending hc hlate
    | setActiveQuery id query =>
      obtain ⟨rfl,-⟩ := Prod.mk.inj (Option.some.inj hstep)
      obtain ⟨t,ht,hle⟩ := ih c hc hlate
      refine ⟨_,mem_map_of_mem ht,?_⟩
      split <;> exact hle

/-- The first of two transactions is still active when the second commits. -/
theorem kept_needed_older : ∃ m cleaned,
    Reaches [.start, .start, .commit (transactionIdStart + 1) false true 7] m cleaned ∧
    m.recentlyCommitted.map (·.commitId) = [4] ∧ ∃ t ∈ m.activeTransactions, t.startTime ≤ 4 := by
  have hrun := ((Reaches.initial.call .start rfl).call .start rfl).call
    (.commit (transactionIdStart + 1) false true 7) rfl
  exact ⟨_,_,hrun,rfl,kept_needed hrun _ mem_cons_self (by decide)⟩

end PredTrans.Transaction
