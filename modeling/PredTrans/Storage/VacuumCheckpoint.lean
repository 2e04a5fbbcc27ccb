import PredTrans.Storage.Vacuum

/-! The merge windows of `ScheduleVacuumTasks` skip row groups without live rows, while a
`VacuumTask` takes the given number of segments in a row. When a skipped row group lies inside a
window, the task finds fewer rows than were counted and throws. -/

namespace PredTrans.Storage

open Library TableGroup
open List hiding count

structure VacuumTask where
  segmentIdx : Nat
  mergeCount : Nat
  targetCount : Nat
  mergeRows : Nat
  rowStart : Nat
  deriving DecidableEq, Repr

/-- The inner loop of `ScheduleVacuumTasks`, over the counts from the segment on:
the number of row groups that fit, and their rows. -/
def mergeWindow (totalTargetSize : Nat) : Nat → Nat → List Nat → Nat × Nat
  | mergeCount, mergeRows, [] => (mergeCount, mergeRows)
  | mergeCount, mergeRows, c :: cs =>
    if c = 0 then mergeWindow totalTargetSize mergeCount mergeRows cs
    else if totalTargetSize < mergeRows + c then (mergeCount, mergeRows)
    else mergeWindow totalTargetSize (mergeCount + 1) (mergeRows + c) cs

/-- The first target count that reduces the number of row groups, with the merge
count before it and the merged rows behind it. -/
def chooseMerge (counts : List Nat) : List Nat → Option (Nat × Nat × Nat)
  | [] => none
  | targetCount :: more =>
    let w := mergeWindow (targetCount * rowGroupSize) 0 0 counts
    if targetCount < w.1 then some (w.1, targetCount, w.2) else chooseMerge counts more

/-- The target counts up to `MAX_MERGE_COUNT`. -/
def targetCounts : List Nat := [1, 2, 3]

section

variable {α : Type*}

/-- `InitializeVacuumState`: a row group without live rows is dropped before anything
is scheduled, unless indexes keep its deletes from being vacuumed. -/
def keepLive (canVacuumDeletes : Bool) (g : TableGroup α) : Option (TableGroup α) :=
  if canVacuumDeletes && g.getCommittedRowCount == 0 then none else some g

/-- The scheduling loop of `Checkpoint` from segment `idx` on: the vacuum tasks, and
the segments after it. Row groups that are not merged get their new start here. -/
def schedule (canVacuumDeletes : Bool) :
    Nat → Nat → Nat → List (TableGroup α) → List VacuumTask × List (Option (TableGroup α))
  | _, _, _, [] => ([], [])
  | idx, nextVacuumIdx, rowStart, g :: gs =>
    let move :=
      let r := schedule canVacuumDeletes (idx + 1) nextVacuumIdx (rowStart + g.count) gs
      (r.1, some (g.moveToCollection rowStart) :: r.2)
    if canVacuumDeletes = false then move
    else if idx < nextVacuumIdx then
      let r := schedule canVacuumDeletes (idx + 1) nextVacuumIdx rowStart gs
      (r.1, keepLive canVacuumDeletes g :: r.2)
    else if g.getCommittedRowCount = 0 then
      let r := schedule canVacuumDeletes (idx + 1) nextVacuumIdx rowStart gs
      (r.1, none :: r.2)
    else match chooseMerge ((g :: gs).map getCommittedRowCount) targetCounts with
      | some (mergeCount, targetCount, mergeRows) =>
        let r := schedule canVacuumDeletes (idx + 1) (idx + mergeCount) (rowStart + mergeRows) gs
        (⟨idx, mergeCount, targetCount, mergeRows, rowStart⟩ :: r.1, some g :: r.2)
      | none => move

/-- The target row groups of a task, filled one after the other. Their starts follow the
planned counts; a task whose rows do not fill these counts throws. -/
def newRowGroups : Nat → Nat → Nat → List α → List (TableGroup α)
  | 0, _, _, _ => []
  | targetCount + 1, rowGroupRows, start, rows =>
    let currentRows := min rowGroupRows rowGroupSize
    { start := start, rows := rows.take rowGroupSize, versionInfo := { start := start } } ::
      newRowGroups targetCount (rowGroupRows - currentRows) (start + currentRows)
        (rows.drop rowGroupSize)

namespace VacuumTask

/-- The task works on this segment. -/
def Covers (t : VacuumTask) (i : Nat) : Prop :=
  t.segmentIdx ≤ i ∧ i < t.segmentIdx + t.mergeCount

instance (t : VacuumTask) (i : Nat) : Decidable (t.Covers i) :=
  inferInstanceAs (Decidable (_ ∧ _))

/-- The rows that the task scans. -/
def scannedRows (lowest : TransactionData) (segments : Nat → Option (TableGroup α))
    (t : VacuumTask) :
    List α :=
  (List.range t.mergeCount).flatMap (fun j =>
    match segments (t.segmentIdx + j) with
    | none => []
    | some g => g.scanCommitted lowest)

/-- What the task leaves in a segment of its own. -/
def target (t : VacuumTask) (rows : List α) (i : Nat) : Option (TableGroup α) :=
  (newRowGroups t.targetCount t.mergeRows t.rowStart rows)[i - t.segmentIdx]?

def execute (lowest : TransactionData) (segments : Nat → Option (TableGroup α)) (t : VacuumTask) :
    Except StorageError (Nat → Option (TableGroup α)) :=
  let rows := t.scannedRows lowest segments
  if rows.length ≠ t.mergeRows then .error (.internal
    "Mismatch in row group count vs verify count in RowGroupCollection::Checkpoint")
  else .ok (fun i => if t.Covers i then t.target rows i else segments i)

end VacuumTask

/-- `RowGroupCollection::Checkpoint` with its tasks executed in the given order: the
row groups and `total_rows`. -/
def checkpoint (canVacuumDeletes : Bool) (lowest : TransactionData) (segments : List (TableGroup α))
    (order : List VacuumTask) : Except StorageError (List (TableGroup α) × Nat) :=
  (order.foldlM (VacuumTask.execute lowest)
    (fun i => (schedule canVacuumDeletes 0 0 0 segments).2[i]?.join)).map
    (fun final =>
      let gs := (List.range segments.length).filterMap final
      (gs, (gs.map TableGroup.count).sum))

/-- Row groups that a window counts. -/
def liveCount (counts : List Nat) : Nat := (counts.filter (· ≠ 0)).length

theorem liveCount_le (counts : List Nat) : liveCount counts ≤ counts.length :=
  length_filter_le _ _

theorem liveCount_append (a b : List Nat) : liveCount (a ++ b) = liveCount a + liveCount b := by
  simp [liveCount]

/-- A window is a stretch of segments, of which it counts those with live rows. -/
theorem mergeWindow_spec {size c r : Nat} {counts : List Nat} (hr : r ≤ size) :
    ∃ p ≤ counts.length, (mergeWindow size c r counts).1 = c + liveCount (counts.take p) ∧
      (mergeWindow size c r counts).2 = r + (counts.take p).sum ∧
          (mergeWindow size c r counts).2 ≤ size := by
  induction counts generalizing c r with
  | nil => exact ⟨0,le_rfl,by simp [mergeWindow,liveCount],by simp [mergeWindow],hr⟩
  | cons x xs ih =>
    unfold mergeWindow
    split
    · rename_i hx
      obtain ⟨p,hp,h1,h2,h3⟩ := @ih c r hr
      refine ⟨p + 1,Nat.succ_le_succ hp,?_,?_,h3⟩
      · rw [h1]
        simp [liveCount,hx]
      · rw [h2]
        simp [hx]
    · rename_i hx
      split
      · exact ⟨0,Nat.zero_le _,by simp [liveCount],by simp,hr⟩
      obtain ⟨p,hp,h1,h2,h3⟩ := @ih (c + 1) (r + x) (by omega)
      refine ⟨p + 1,Nat.succ_le_succ hp,?_,?_,h3⟩
      · rw [h1]
        simp [liveCount,hx]
        omega
      · simp
        omega

theorem chooseMerge_spec {counts targets : List Nat} {mc tc mr : Nat}
    (h : chooseMerge counts targets = some (mc, tc, mr)) :
    tc < mc ∧ mr ≤ tc * rowGroupSize ∧
      ∃ p ≤ counts.length, mc = liveCount (counts.take p) ∧ mr = (counts.take p).sum := by
  induction targets with
  | nil => cases h
  | cons t ts ih =>
    unfold chooseMerge at h
    dsimp only at h
    split at h
    · rename_i hlt
      obtain ⟨p,hp,h1,h2,h3⟩ := @mergeWindow_spec _ 0 _ counts (Nat.zero_le (t * rowGroupSize))
      obtain ⟨rfl,rfl,rfl⟩ := h
      exact ⟨hlt,h3,p,hp,by simpa using h1,by simpa using h2⟩
    · exact ih h

theorem sum_eq_zero_of_liveCount (h : liveCount l = 0) : l.sum = 0 := by
  rw [List.sum_eq_zero_iff_forall_eq_nat]
  intro x hx
  by_contra hne
  have hmem : x ∈ l.filter (· ≠ 0) := mem_filter.mpr ⟨hx,by simpa using hne⟩
  rw [length_eq_zero_iff.mp h] at hmem
  cases hmem

theorem sum_pos_of_liveCount (h : liveCount l ≠ 0) : 0 < l.sum := by
  by_contra hsum
  apply h
  unfold liveCount
  rw [length_eq_zero_iff,filter_eq_nil_iff]
  intro x hx
  have := List.sum_eq_zero_iff_forall_eq_nat.mp (Nat.eq_zero_of_not_pos hsum) x hx
  simpa using this

/-- The segments that the task walks hold the counted rows exactly if each of them
has live rows. -/
theorem window_sum_iff {counts : List Nat} (hp : p ≤ counts.length)
    (hmc : mc = liveCount (counts.take p)) (hmr : mr = (counts.take p).sum) :
    (counts.take mc).sum = mr ↔ ∀ x ∈ counts.take mc, x ≠ 0 := by
  have hle : mc ≤ p := by
    have := liveCount_le (counts.take p)
    rw [length_take] at this
    omega
  have hsplit : counts.take p = counts.take mc ++ (counts.take p).drop mc := by
    have htake : counts.take mc = (counts.take p).take mc := by rw [take_take,min_eq_left hle]
    rw [htake,take_append_drop]
  have hlive : mc = liveCount (counts.take mc) + liveCount ((counts.take p).drop mc) := by
    rw [← liveCount_append,← hsplit]
    exact hmc
  have hsum : mr = (counts.take mc).sum + ((counts.take p).drop mc).sum := by
    rw [← sum_append,← hsplit]
    exact hmr
  have hlen : (counts.take mc).length = mc := by
    rw [length_take]
    omega
  constructor
  · intro heq
    have hzero : liveCount ((counts.take p).drop mc) = 0 := by
      by_contra hne
      have := sum_pos_of_liveCount hne
      omega
    have hfull : ((counts.take mc).filter (· ≠ 0)).length = (counts.take mc).length := by
      have : liveCount (counts.take mc) = mc := by omega
      rw [hlen]
      exact this
    intro x hx
    simpa using length_filter_eq_length_iff.mp hfull x hx
  · intro hall
    have hfull : liveCount (counts.take mc) = (counts.take mc).length := by
      apply length_filter_eq_length_iff.mpr
      intro x hx
      simpa using hall x hx
    have := sum_eq_zero_of_liveCount (show liveCount ((counts.take p).drop mc) = 0 by omega)
    omega

/-- The segments that a task walks. -/
def VacuumTask.window (t : VacuumTask) (segments : List (TableGroup α)) : List (TableGroup α) :=
  (segments.drop t.segmentIdx).take t.mergeCount

/-- Every segment that the task walks has live rows. -/
def VacuumTask.GapFree (t : VacuumTask) (segments : List (TableGroup α)) : Prop :=
  ∀ g ∈ t.window segments, g.getCommittedRowCount ≠ 0

variable {cv : Bool} {segments gs : List (TableGroup α)} {idx next rowStart : Nat} {t : VacuumTask}

theorem drop_tail (h : g :: gs = segments.drop idx) : gs = segments.drop (idx + 1) := by
  rw [← tail_drop,← h]
  rfl

theorem schedule_cases (cv : Bool) (idx next rowStart : Nat) (g : TableGroup α)
    (gs : List (TableGroup α)) :
    ((cv = true → next ≤ idx) ∧ schedule cv idx next rowStart (g :: gs) =
      ((schedule cv (idx + 1) next (rowStart + g.count) gs).1,
        some (g.moveToCollection rowStart) ::
          (schedule cv (idx + 1) next (rowStart + g.count) gs).2)) ∨
    (cv = true ∧ idx < next ∧ schedule cv idx next rowStart (g :: gs) =
      ((schedule cv (idx + 1) next rowStart gs).1,
        keepLive true g :: (schedule cv (idx + 1) next rowStart gs).2)) ∨
    (cv = true ∧ next ≤ idx ∧ g.getCommittedRowCount = 0 ∧ schedule cv idx next rowStart (g :: gs) =
      ((schedule cv (idx + 1) next rowStart gs).1,
        none :: (schedule cv (idx + 1) next rowStart gs).2)) ∨
    (cv = true ∧ next ≤ idx ∧ g.getCommittedRowCount ≠ 0 ∧ ∃ mc tc mr,
      chooseMerge ((g :: gs).map getCommittedRowCount) targetCounts = some (mc, tc, mr) ∧
      schedule cv idx next rowStart (g :: gs) =
        (⟨idx, mc, tc, mr, rowStart⟩ :: (schedule cv (idx + 1) (idx + mc) (rowStart + mr) gs).1,
          some g :: (schedule cv (idx + 1) (idx + mc) (rowStart + mr) gs).2)) := by
  cases cv with
  | false => exact .inl ⟨fun h => absurd h Bool.false_ne_true,by simp [schedule]⟩
  | true =>
    by_cases hnext : idx < next
    · exact .inr (.inl ⟨rfl,hnext,by simp [schedule,hnext]⟩)
    have hle : next ≤ idx := not_lt.mp hnext
    by_cases hlive : g.getCommittedRowCount = 0
    · exact .inr (.inr (.inl ⟨rfl,hle,hlive,by simp [schedule,hnext,hlive]⟩))
    cases hchoose : chooseMerge ((g :: gs).map getCommittedRowCount) targetCounts with
    | none =>
      refine .inl ⟨fun _ => hle,?_⟩
      conv_lhs => unfold schedule
      simp only [hchoose,hnext,hlive,if_false,Bool.true_eq_false]
    | some w =>
      obtain ⟨mc,tc,mr⟩ := w
      refine .inr (.inr (.inr ⟨rfl,hle,hlive,mc,tc,mr,rfl,?_⟩))
      conv_lhs => unfold schedule
      simp only [hchoose,hnext,hlive,if_false,Bool.true_eq_false]

theorem schedule_task (hgs : gs = segments.drop idx)
    (ht : t ∈ (schedule cv idx next rowStart gs).1) :
    idx ≤ t.segmentIdx ∧ (cv = true → next ≤ t.segmentIdx) ∧
      chooseMerge ((segments.drop t.segmentIdx).map getCommittedRowCount) targetCounts =
        some (t.mergeCount, t.targetCount, t.mergeRows) := by
  induction gs generalizing idx next rowStart with
  | nil => cases ht
  | cons g gs ih =>
    have htail : ∀ {nx rs}, t ∈ (schedule cv (idx + 1) nx rs gs).1 → idx ≤ t.segmentIdx ∧
        (cv = true → nx ≤ t.segmentIdx) ∧
        chooseMerge ((segments.drop t.segmentIdx).map getCommittedRowCount) targetCounts =
          some (t.mergeCount, t.targetCount, t.mergeRows) := by
      intro nx rs hmem
      obtain ⟨h1,h2,h3⟩ := ih (drop_tail hgs) hmem
      exact ⟨by omega,h2,h3⟩
    obtain ⟨-,he⟩ | ⟨-,-,he⟩ | ⟨-,-,-,he⟩ | ⟨hcv,hle,-,mc,tc,mr,hchoose,he⟩ :=
      schedule_cases cv idx next rowStart g gs
    all_goals rw [he] at ht
    · exact htail ht
    · exact htail ht
    · exact htail ht
    · rcases mem_cons.mp ht with rfl | ht
      · exact ⟨le_rfl,fun _ => hle,by rw [← hgs]; exact hchoose⟩
      · obtain ⟨h1,h2,h3⟩ := htail ht
        exact ⟨h1,fun _ => hle.trans (le_trans (by omega) (h2 hcv)),h3⟩

/-- Later tasks start behind the windows of earlier ones. -/
theorem schedule_pairwise (hgs : gs = segments.drop idx) :
    (schedule cv idx next rowStart gs).1.Pairwise
      (fun t u => t.segmentIdx + t.mergeCount ≤ u.segmentIdx) := by
  induction gs generalizing idx next rowStart with
  | nil => exact List.Pairwise.nil
  | cons g gs ih =>
    have hgs' := drop_tail hgs
    obtain ⟨-,he⟩ | ⟨-,-,he⟩ | ⟨-,-,-,he⟩ | ⟨hcv,-,-,mc,tc,mr,-,he⟩ :=
      schedule_cases cv idx next rowStart g gs
    all_goals rw [he]
    · exact ih hgs'
    · exact ih hgs'
    · exact ih hgs'
    · apply List.Pairwise.cons
      · intro u hu
        exact (schedule_task hgs' hu).2.1 hcv
      · exact ih hgs'

/-- Segments of a window are left to its task. -/
theorem schedule_covered (hcv : cv = true) (hi : idx + i < next) :
    (schedule cv idx next rowStart gs).2[i]? = gs[i]?.map (keepLive true) := by
  induction gs generalizing idx rowStart i with
  | nil => rfl
  | cons g gs ih =>
    obtain ⟨hle,-⟩ | ⟨-,-,he⟩ | ⟨-,hle,-⟩ | ⟨-,hle,-⟩ := schedule_cases cv idx next rowStart g gs
    · have := hle hcv
      omega
    · rw [he]
      cases i with
      | zero => rfl
      | succ i => exact @ih (idx + 1) rowStart i (by omega)
    · omega
    · omega

theorem schedule_window (hgs : gs = segments.drop idx)
    (ht : t ∈ (schedule cv idx next rowStart gs).1) (hj : j < t.mergeCount) :
    (schedule cv idx next rowStart gs).2[t.segmentIdx - idx + j]? =
      segments[t.segmentIdx + j]?.map (keepLive true) := by
  induction gs generalizing idx next rowStart with
  | nil => cases ht
  | cons g gs ih =>
    have hgs' := drop_tail hgs
    -- a task of the tail keeps its place in the list of segments
    have htail : ∀ {nx rs} (x : Option (TableGroup α)), t ∈ (schedule cv (idx + 1) nx rs gs).1 →
        (x :: (schedule cv (idx + 1) nx rs gs).2)[t.segmentIdx - idx + j]? =
          segments[t.segmentIdx + j]?.map (keepLive true) := by
      intro nx rs x hmem
      have hle := (schedule_task hgs' hmem).1
      rw [show t.segmentIdx - idx + j = (t.segmentIdx - (idx + 1) + j) + 1 by omega,
        getElem?_cons_succ]
      exact ih hgs' hmem
    obtain ⟨-,he⟩ | ⟨-,-,he⟩ | ⟨-,-,-,he⟩ | ⟨hcv,-,hlive,mc,tc,mr,-,he⟩ :=
      schedule_cases cv idx next rowStart g gs
    all_goals rw [he] at ht ⊢
    · exact htail _ ht
    · exact htail _ ht
    · exact htail _ ht
    · rcases mem_cons.mp ht with rfl | ht
      · dsimp only at hj ⊢
        rw [Nat.sub_self,zero_add,← getElem?_drop,← hgs]
        cases j with
        | zero => simp [keepLive,hlive]
        | succ j =>
          rw [getElem?_cons_succ,getElem?_cons_succ,schedule_covered hcv (by omega)]
      · exact htail _ ht

variable {lowest : TransactionData} {slots : Nat → Option (TableGroup α)}

/-- A segment without live rows contributes nothing, whether it was dropped or not. -/
theorem liveRows_keepLive (hg : g.Committed lowest) :
    (keepLive true g).elim [] (scanCommitted lowest) = g.liveRows := by
  unfold keepLive
  split
  · rename_i hz
    have hz : g.liveRows.length = 0 := by
      rw [← hg.rowCount_eq]
      simpa using hz
    exact (length_eq_zero_iff.mp hz).symm
  · exact hg.scanCommitted_eq

/-- The segments before any task ran. -/
def scheduled (cv : Bool) (segments : List (TableGroup α)) (i : Nat) : Option (TableGroup α) :=
  (schedule cv 0 0 0 segments).2[i]?.join

/-- The windows of two tasks do not meet. -/
def VacuumTask.Apart (t u : VacuumTask) : Prop :=
  t.segmentIdx + t.mergeCount ≤ u.segmentIdx ∨ u.segmentIdx + u.mergeCount ≤ t.segmentIdx

theorem VacuumTask.Apart.not_covers (h : t.Apart u) (hu : u.Covers i) : ¬ t.Covers i := by
  unfold VacuumTask.Apart at h
  unfold VacuumTask.Covers at hu ⊢
  omega

def mismatchError : StorageError :=
  .internal "Mismatch in row group count vs verify count in RowGroupCollection::Checkpoint"

section

variable (hcommitted : ∀ g ∈ segments, g.Committed lowest)
include hcommitted

section

variable (ht : t ∈ (schedule cv 0 0 0 segments).1)
include ht

theorem window_length_iff :
    ((t.window segments).flatMap liveRows).length = t.mergeRows ↔ t.GapFree segments := by
  obtain ⟨-,-,hchoose⟩ := schedule_task (drop_zero).symm ht
  obtain ⟨-,-,p,hp,hmc,hmr⟩ := chooseMerge_spec hchoose
  have hcounts : ((segments.drop t.segmentIdx).map getCommittedRowCount).take t.mergeCount =
      (t.window segments).map getCommittedRowCount := by
    rw [VacuumTask.window,map_take]
  have hsum : ((t.window segments).flatMap liveRows).length =
      ((t.window segments).map getCommittedRowCount).sum := by
    rw [length_flatMap]
    congr 1
    apply map_congr_left
    intro g hg
    exact (hcommitted g (mem_of_mem_drop (mem_of_mem_take hg))).rowCount_eq.symm
  rw [hsum,← hcounts,window_sum_iff hp hmc hmr,hcounts]
  simp [VacuumTask.GapFree]

variable (hslots : ∀ i, t.Covers i → slots i = scheduled cv segments i)
include hslots

theorem scannedRows_eq : t.scannedRows lowest slots = (t.window segments).flatMap liveRows := by
  obtain ⟨-,-,hchoose⟩ := schedule_task (drop_zero).symm ht
  obtain ⟨-,-,p,hp,hmc,-⟩ := chooseMerge_spec hchoose
  have hlen : (t.window segments).length = t.mergeCount := by
    have := liveCount_le (((segments.drop t.segmentIdx).map getCommittedRowCount).take p)
    rw [length_take] at this
    rw [VacuumTask.window,length_take]
    rw [length_map] at this hp
    omega
  rw [← flatMap_range_getElem? (t.window segments),hlen]
  apply flatMap_congr
  intro j hj
  have hj := mem_range.mp hj
  have hwin := schedule_window (drop_zero).symm ht hj
  have hget : (t.window segments)[j]? = segments[t.segmentIdx + j]? := by
    rw [VacuumTask.window,getElem?_take_of_lt hj,getElem?_drop]
  rw [hslots _ ⟨Nat.le_add_right _ _,Nat.add_lt_add_left hj _⟩,scheduled,hget]
  rw [Nat.sub_zero] at hwin
  rw [hwin]
  cases hg : segments[t.segmentIdx + j]? with
  | none => rfl
  | some g =>
    refine Eq.trans ?_ (liveRows_keepLive (hcommitted g (mem_of_getElem? hg)))
    cases hk : keepLive true g with
    | none | some g' => simp [hk]

theorem execute_gapFree (hgap : t.GapFree segments) :
    t.execute lowest slots = .ok (fun i =>
      if t.Covers i then t.target ((t.window segments).flatMap liveRows) i else slots i) := by
  unfold VacuumTask.execute
  rw [scannedRows_eq hcommitted ht hslots,
    if_neg (not_not.mpr ((window_length_iff hcommitted ht).mpr hgap))]

theorem execute_gap (hgap : ¬ t.GapFree segments) :
    t.execute lowest slots = .error mismatchError := by
  unfold VacuumTask.execute
  rw [scannedRows_eq hcommitted ht hslots,
    if_pos (fun h => hgap ((window_length_iff hcommitted ht).mp h))]
  rfl

end

variable {order : List VacuumTask} (hsub : ∀ t ∈ order, t ∈ (schedule cv 0 0 0 segments).1)
  (hapart : order.Pairwise VacuumTask.Apart)
  (hslots : ∀ t ∈ order, ∀ i, t.Covers i → slots i = scheduled cv segments i)
include hsub hapart hslots

theorem execute_all (hgap : ∀ t ∈ order, t.GapFree segments) :
    ∃ final, order.foldlM (VacuumTask.execute lowest) slots = .ok final ∧
      (∀ t ∈ order, ∀ i, t.Covers i → final i = t.target ((t.window segments).flatMap liveRows) i) ∧
      (∀ i, (∀ t ∈ order, ¬ t.Covers i) → final i = slots i) := by
  induction order generalizing slots with
  | nil => exact ⟨slots,rfl,nofun,fun _ _ => rfl⟩
  | cons t order ih =>
    obtain ⟨hhead,htail⟩ := pairwise_cons.mp hapart
    have hstep := execute_gapFree hcommitted (hsub t mem_cons_self)
      (hslots t mem_cons_self) (hgap t mem_cons_self)
    have hrest : ∀ u ∈ order, ∀ i, u.Covers i →
        (if t.Covers i then t.target ((t.window segments).flatMap liveRows) i else slots i) =
          scheduled cv segments i := by
      intro u hu i hi
      rw [if_neg ((hhead u hu).not_covers hi)]
      exact hslots u (mem_cons_of_mem _ hu) i hi
    obtain ⟨final,hok,hcov,hkeep⟩ := ih (forall_mem_cons.mp hsub).2 htail hrest
      (forall_mem_cons.mp hgap).2
    refine ⟨final,?_,?_,?_⟩
    · rw [foldlM_cons,hstep]
      exact hok
    · intro u hu i hi
      rcases mem_cons.mp hu with rfl | hu
      · rw [hkeep i (fun v hv hcv => (hhead v hv).not_covers hcv hi),if_pos hi]
      · exact hcov u hu i hi
    · intro i hi
      rw [hkeep i (forall_mem_cons.mp hi).2,if_neg (hi t mem_cons_self)]

theorem execute_all_gap (hgap : ∃ t ∈ order, ¬ t.GapFree segments) :
    order.foldlM (VacuumTask.execute lowest) slots = .error mismatchError := by
  induction order generalizing slots with
  | nil =>
    obtain ⟨t,ht,-⟩ := hgap
    cases ht
  | cons t order ih =>
    obtain ⟨hhead,htail⟩ := pairwise_cons.mp hapart
    have ht := hsub t mem_cons_self
    have hown := hslots t mem_cons_self
    rw [foldlM_cons]
    by_cases hfree : t.GapFree segments
    · rw [execute_gapFree hcommitted ht hown hfree]
      obtain ⟨u,hu,hugap⟩ := hgap
      have hu : u ∈ order := by
        rcases mem_cons.mp hu with rfl | hu
        · exact absurd hfree hugap
        · exact hu
      refine ih (forall_mem_cons.mp hsub).2 htail ?_ ⟨u,hu,hugap⟩
      intro v hv i hi
      rw [if_neg ((hhead v hv).not_covers hi)]
      exact hslots v (mem_cons_of_mem _ hv) i hi
    · rw [execute_gap hcommitted ht hown hfree]
      rfl

end

/-- Each row group starts where the one before ends. -/
def Consecutive : Nat → List (TableGroup α) → Prop
  | _, [] => True
  | start, g :: gs => g.start = start ∧ Consecutive (start + g.count) gs

theorem Consecutive.append {start : Nat} {as bs : List (TableGroup α)} (ha : Consecutive start as)
    (hb : Consecutive (start + (as.map count).sum) bs) : Consecutive start (as ++ bs) := by
  induction as generalizing start with
  | nil => exact hb
  | cons a as ih =>
    refine ⟨ha.1,ih ha.2 ?_⟩
    rw [map_cons,sum_cons,← add_assoc] at hb
    exact hb

theorem liveRows_new (start start' : Nat) (rows : List α) :
    (TableGroup.mk start rows { start := start' }).liveRows = rows := by
  have hall : (List.range rows.length).filter
      (fun r => (RowVersionManager.deletedAt { start := start' } r) == notDeletedId) =
        List.range rows.length := by
    apply filter_eq_self.mpr
    intro r _
    rfl
  simp only [liveRows,count,hall]
  exact filterMap_range_getElem? le_rfl

theorem newRowGroups_spec {k mr start : Nat} {rows : List α} (hlen : rows.length = mr)
    (hfit : mr ≤ k * rowGroupSize) :
    (newRowGroups k mr start rows).flatMap liveRows = rows ∧
      Consecutive start (newRowGroups k mr start rows) ∧
      ((newRowGroups k mr start rows).map count).sum = mr ∧
          (newRowGroups k mr start rows).length = k := by
  induction k generalizing mr start rows with
  | zero =>
    have hz : mr = 0 := by omega
    have hnil : rows = [] := length_eq_zero_iff.mp (hlen.trans hz)
    exact ⟨hnil.symm,trivial,hz.symm,rfl⟩
  | succ k ih =>
    have hcount : (rows.take rowGroupSize).length = min mr rowGroupSize := by
      rw [length_take,hlen,min_comm]
    have hrest : (rows.drop rowGroupSize).length = mr - min mr rowGroupSize := by
      rw [length_drop,hlen]
      omega
    rw [Nat.succ_mul] at hfit
    obtain ⟨h1,h2,h3,h4⟩ := @ih _ (start + min mr rowGroupSize) _ hrest (by omega)
    unfold newRowGroups
    refine ⟨?_,⟨rfl,?_⟩,?_,?_⟩
    · rw [flatMap_cons,h1,liveRows_new,take_append_drop]
    · simp only [count,hcount]
      exact h2
    · rw [map_cons,sum_cons,h3,count,hcount]
      omega
    · rw [length_cons,h4]

/-- The segments after all tasks, from the first one behind `next` on. -/
def remaining (final : Nat → Option (TableGroup α)) (idx next length : Nat) : List (TableGroup α) :=
  (List.range' (max idx next) (idx + length - max idx next)).filterMap final

theorem remaining_cons (h : next ≤ idx) (n : Nat) :
    remaining final idx next (n + 1) = (final idx).toList ++ remaining final (idx + 1) next n := by
  unfold remaining
  rw [max_eq_left h,max_eq_left (Nat.le_succ_of_le h),Nat.add_sub_cancel_left,
    Nat.add_sub_cancel_left,range'_succ,filterMap_cons]
  cases final idx <;> rfl

theorem remaining_covered (h : idx < next) (n : Nat) :
    remaining final idx next (n + 1) = remaining final (idx + 1) next n := by
  unfold remaining
  rw [max_eq_right h.le,max_eq_right h]
  congr 2
  omega

theorem remaining_window (hnext : next ≤ idx) (hpos : 0 < mc) (hmc : mc ≤ n + 1) :
    remaining final idx next (n + 1) = ((List.range mc).filterMap (fun j => final (idx + j))) ++
      remaining final (idx + 1) (idx + mc) n := by
  unfold remaining
  rw [max_eq_left hnext,max_eq_right (show idx + 1 ≤ idx + mc by omega),Nat.add_sub_cancel_left,
    show n + 1 = mc + (idx + 1 + n - (idx + mc)) by omega,← range'_append_1,filterMap_append,
    show idx + 1 + n - (idx + mc) = n + 1 - mc by omega,range'_eq_map_range,filterMap_map]
  congr 3

/-- The scheduling loop and the tasks together: from any segment on, the rows that are
still to come and the start that was reached. -/
theorem remaining_spec (hcommitted : ∀ g ∈ segments, g.Committed lowest)
    {final : Nat → Option (TableGroup α)} (hgs : gs = segments.drop idx)
    (hcv : cv = false → next ≤ idx) (hnext : next ≤ idx + gs.length)
    (hcov : ∀ t ∈ (schedule cv idx next rowStart gs).1, ∀ i, t.Covers i →
      final i = t.target ((t.window segments).flatMap liveRows) i)
    (hkeep : ∀ i < gs.length, next ≤ idx + i →
      (∀ t ∈ (schedule cv idx next rowStart gs).1, ¬ t.Covers (idx + i)) →
        final (idx + i) = (schedule cv idx next rowStart gs).2[i]?.join)
    (hlen : ∀ t ∈ (schedule cv idx next rowStart gs).1,
      ((t.window segments).flatMap liveRows).length = t.mergeRows) :
    (remaining final idx next gs.length).flatMap liveRows =
      (gs.drop (next - idx)).flatMap liveRows ∧
      Consecutive rowStart (remaining final idx next gs.length) := by
  induction gs generalizing idx next rowStart with
  | nil => simp [remaining,Consecutive]
  | cons g gs ih =>
    have hgs' := drop_tail hgs
    rw [length_cons] at hnext ⊢
    -- tasks of the tail start behind this segment
    have hbehind : ∀ {nx rs}, ∀ t ∈ (schedule cv (idx + 1) nx rs gs).1, ¬ t.Covers idx := by
      intro nx rs t ht hc
      have := (schedule_task hgs' ht).1
      unfold VacuumTask.Covers at hc
      omega
    have hkeep' : ∀ {nx rs x}, (∀ i < gs.length + 1, next ≤ idx + i →
        (∀ t ∈ (schedule cv (idx + 1) nx rs gs).1, ¬ t.Covers (idx + i)) →
          final (idx + i) = (x :: (schedule cv (idx + 1) nx rs gs).2)[i]?.join) →
        ∀ i < gs.length, next ≤ idx + 1 + i →
          (∀ t ∈ (schedule cv (idx + 1) nx rs gs).1, ¬ t.Covers (idx + 1 + i)) →
            final (idx + 1 + i) = (schedule cv (idx + 1) nx rs gs).2[i]?.join := by
      intro nx rs x h i hi hn hc
      have := h (i + 1) (by omega) (by omega)
      rw [getElem?_cons_succ,show idx + (i + 1) = idx + 1 + i by omega] at this
      exact this hc
    obtain ⟨hle,he⟩ | ⟨-,hlt,he⟩ | ⟨-,hle,hdead,he⟩ | ⟨hcv',hle,-,mc,tc,mr,hchoose,he⟩ :=
      schedule_cases cv idx next rowStart g gs
    · have hle : next ≤ idx := by
        cases hc : cv with
        | false => exact hcv hc
        | true => exact hle hc
      rw [he] at hcov hkeep hlen
      obtain ⟨h1,h2⟩ := ih hgs' (fun _ => by omega) (by omega) hcov (hkeep' hkeep) hlen
      have hfinal : final idx = some (g.moveToCollection rowStart) :=
        hkeep 0 (Nat.succ_pos _) hle hbehind
      rw [remaining_cons hle,hfinal]
      rw [Nat.sub_eq_zero_of_le (by omega)] at h1 ⊢
      exact ⟨by simpa [liveRows_moveToCollection] using h1,rfl,h2⟩
    · rw [he] at hcov hkeep hlen
      obtain ⟨h1,h2⟩ := ih hgs' (fun hc => absurd (hcv hc) (by omega)) (by omega) hcov
        (hkeep' hkeep) hlen
      rw [remaining_covered hlt,show next - idx = next - (idx + 1) + 1 by omega]
      exact ⟨h1,h2⟩
    · rw [he] at hcov hkeep hlen
      obtain ⟨h1,h2⟩ := ih hgs' (fun _ => by omega) (by omega) hcov (hkeep' hkeep) hlen
      have hfinal : final idx = none := hkeep 0 (Nat.succ_pos _) hle hbehind
      have hmem : g ∈ segments := mem_of_mem_drop (hgs ▸ mem_cons_self)
      have hempty : g.liveRows = [] := by
        rw [← length_eq_zero_iff,← (hcommitted g hmem).rowCount_eq,hdead]
      rw [remaining_cons hle,hfinal]
      rw [Nat.sub_eq_zero_of_le (by omega)] at h1 ⊢
      exact ⟨by simpa [hempty] using h1,h2⟩
    · rw [he] at hcov hkeep hlen
      obtain ⟨htm,hfit,p,hp,hmc,-⟩ := chooseMerge_spec hchoose
      have hmcle : mc ≤ gs.length + 1 := by
        have := liveCount_le (((g :: gs).map getCommittedRowCount).take p)
        rw [length_take] at this
        rw [length_map,length_cons] at hp
        omega
      have hwindow : VacuumTask.window ⟨idx,mc,tc,mr,rowStart⟩ segments = (g :: gs).take mc := by
        rw [VacuumTask.window,← hgs]
      have hhead : (((g :: gs).take mc).flatMap liveRows).length = mr := by
        rw [← hwindow]
        exact hlen _ mem_cons_self
      obtain ⟨n1,n2,n3,n4⟩ := @newRowGroups_spec _ tc mr rowStart _ hhead hfit
      -- behind the window, only the tasks of the tail matter
      have hrest : ∀ i < gs.length, idx + mc ≤ idx + 1 + i →
          (∀ t ∈ (schedule cv (idx + 1) (idx + mc) (rowStart + mr) gs).1,
            ¬ t.Covers (idx + 1 + i)) →
            final (idx + 1 + i) =
              (schedule cv (idx + 1) (idx + mc) (rowStart + mr) gs).2[i]?.join := by
        intro i hi hn hc
        have := hkeep (i + 1) (by rw [length_cons]; omega) (by omega)
        rw [getElem?_cons_succ,show idx + (i + 1) = idx + 1 + i by omega] at this
        apply this
        intro t ht
        rcases mem_cons.mp ht with rfl | ht
        · unfold VacuumTask.Covers
          dsimp only
          omega
        · exact hc t ht
      obtain ⟨h1,h2⟩ := ih hgs' (fun hc => absurd (hcv'.symm.trans hc) Bool.true_eq_false_eq_False)
        (by omega) (forall_mem_cons.mp hcov).2 hrest
        (forall_mem_cons.mp hlen).2
      have htargets : (List.range mc).filterMap (fun j => final (idx + j)) =
          newRowGroups tc mr rowStart (((g :: gs).take mc).flatMap liveRows) := by
        rw [← filterMap_range_getElem? (show (newRowGroups tc mr rowStart
          (((g :: gs).take mc).flatMap liveRows)).length ≤ mc by omega)]
        apply filterMap_congr
        intro j hj
        rw [hcov _ mem_cons_self _ ⟨Nat.le_add_right _ _,Nat.add_lt_add_left (mem_range.mp hj) _⟩,
          VacuumTask.target,hwindow]
        simp
      rw [remaining_window hle (by omega) hmcle,htargets,Nat.sub_eq_zero_of_le hle,drop_zero,
        flatMap_append,n1,h1,show idx + mc - (idx + 1) = mc - 1 by omega]
      refine ⟨?_,n2.append (by rw [n3]; exact h2)⟩
      have hdrop : gs.drop (mc - 1) = (g :: gs).drop mc := by
        obtain ⟨k,rfl⟩ : ∃ k, mc = k + 1 := ⟨mc - 1,by omega⟩
        simp
      rw [hdrop,← flatMap_append,take_append_drop]

/-- The row groups after a checkpoint hold the live rows in order, at consecutive
starts, and the total is the sum of their counts. -/
structure KeepsLiveRows (segments : List (TableGroup α)) (result : List (TableGroup α) × Nat) :
    Prop where
  rows : result.1.flatMap liveRows = segments.flatMap liveRows
  consecutive : Consecutive 0 result.1
  total : result.2 = (result.1.map count).sum

theorem schedule_apart (cv : Bool) (segments : List (TableGroup α)) :
    (schedule cv 0 0 0 segments).1.Pairwise VacuumTask.Apart :=
  (schedule_pairwise (drop_zero).symm).imp (fun h => .inl h)

theorem checkpoint_gap (hcommitted : ∀ g ∈ segments, g.Committed lowest)
    (hgap : ∃ t ∈ (schedule cv 0 0 0 segments).1, ¬ t.GapFree segments) :
    checkpoint cv lowest segments (schedule cv 0 0 0 segments).1 = .error mismatchError := by
  have hslots : ∀ t ∈ (schedule cv 0 0 0 segments).1, ∀ i, t.Covers i →
      scheduled cv segments i = scheduled cv segments i := fun _ _ _ _ => rfl
  have herr := execute_all_gap hcommitted (fun _ ht => ht) (schedule_apart cv segments) hslots hgap
  unfold checkpoint
  rw [show (fun i => (schedule cv 0 0 0 segments).2[i]?.join) = scheduled cv segments from rfl,herr]
  rfl

/-- A checkpoint completes with exactly the live rows, in whatever order its tasks
run, exactly if no merge window has a row group without live rows inside. -/
theorem checkpoint_keepsLiveRows_iff (cv : Bool) (lowest : TransactionData)
    (segments : List (TableGroup α)) (hcommitted : ∀ g ∈ segments, g.Committed lowest) :
    (∀ order, order.Perm (schedule cv 0 0 0 segments).1 →
      ∃ result, checkpoint cv lowest segments order = .ok result ∧ KeepsLiveRows segments result) ↔
    ∀ t ∈ (schedule cv 0 0 0 segments).1, t.GapFree segments := by
  constructor
  · intro h
    by_contra! hgap
    obtain ⟨result,hok,-⟩ := h _ (List.Perm.refl _)
    rw [checkpoint_gap hcommitted hgap] at hok
    cases hok
  intro hgap order hperm
  have hmem : ∀ t, t ∈ order ↔ t ∈ (schedule cv 0 0 0 segments).1 := fun t => hperm.mem_iff
  have hapart' : order.Pairwise VacuumTask.Apart :=
    hperm.symm.pairwise (schedule_apart cv segments) Or.symm
  obtain ⟨final,hok,hcov,hkeep⟩ := execute_all hcommitted (fun t ht => (hmem t).mp ht) hapart'
    (fun t ht i hi => rfl) (fun t ht => hgap t ((hmem t).mp ht))
  have hremaining : remaining final 0 0 segments.length =
      (List.range segments.length).filterMap final := by
    simp [remaining,range_eq_range']
  obtain ⟨h1,h2⟩ := @remaining_spec _ cv segments segments 0 0 0 lowest hcommitted final
    (drop_zero).symm (fun _ => le_rfl) (Nat.zero_le _)
    (fun t ht => hcov t ((hmem t).mpr ht))
    (fun i _ _ hc => by
      rw [zero_add] at hc ⊢
      exact hkeep i (fun t ht => hc t ((hmem t).mp ht)))
    (fun t ht => (window_length_iff hcommitted ht).mpr (hgap t ht))
  rw [hremaining] at h1 h2
  refine ⟨((List.range segments.length).filterMap final,
    (((List.range segments.length).filterMap final).map count).sum),?_,⟨h1,h2,rfl⟩⟩
  unfold checkpoint
  rw [show (fun i => (schedule cv 0 0 0 segments).2[i]?.join) = scheduled cv segments from rfl,hok]
  rfl

end

/-- One row, loaded from disk. -/
def loadedGroup (start row : Nat) : TableGroup Nat where
  start := start
  rows := [row]
  versionInfo := { start := start }

/-- One row that a transaction deleted with commit id 5. -/
def deletedGroup (start row : Nat) : TableGroup Nat where
  start := start
  rows := [row]
  versionInfo :=
    ((({ start := start } : RowVersionManager).deleteRows 0 transactionIdStart
      [0]).1).commitDelete 0 5 [0]

def checkpointTransaction : TransactionData := ⟨transactionIdStart + 1, 6⟩

theorem loadedGroup_committed (start row : Nat) :
    (loadedGroup start row).Committed checkpointTransaction :=
  ⟨RowVersionManager.coherent_new (show 1 ≤ rowGroupSize by decide),fun _ _ => .inl rfl⟩

theorem deletedGroup_committed (start row : Nat) :
    (deletedGroup start row).Committed checkpointTransaction := by
  have hslot : ∀ i ∈ [0], 0 * standardVectorSize + i < 1 ∧ i < standardVectorSize := by decide
  have hnew : RowVersionManager.Coherent { start := start } 1 :=
    RowVersionManager.coherent_new (by decide)
  have hmarked := hnew.delete transactionIdStart (cons_ne_nil 0 [])
    (fun i hi => ⟨(hslot i hi).1,(hslot i hi).2,by simp [RowVersionManager.deletedAt,
      RowVersionManager.infoDeletedAt,notDeletedId]⟩)
  have hmark : ∀ i ∈ [0], (({ start := start } : RowVersionManager).deleteRows 0 transactionIdStart
      [0]).1.deletedAt (0 * standardVectorSize + i) = transactionIdStart := by
    intro i hi
    obtain rfl : i = 0 := by simpa using hi
    rfl
  obtain ⟨hcoherent,-,-⟩ := hmarked.2.1.commitDelete 5 (cons_ne_nil 0 [])
    (fun i hi => ⟨(hslot i hi).1,(hslot i hi).2,by rw [hmark i hi]; decide,
      by rw [hmark i hi]; decide⟩)
  refine ⟨hcoherent,fun r hr => .inr ?_⟩
  have hat : (deletedGroup start row).versionInfo.deletedAt r = 5 := by
    obtain rfl : r = 0 := Nat.lt_one_iff.mp hr
    rfl
  rw [hat]
  decide

/-- A deleted row group between two row groups with a live row each. -/
def withGap : List (TableGroup Nat) := [loadedGroup 0 10, deletedGroup 1 11, loadedGroup 2 12]

/-- The deleted row group stands in front, so that the two live ones are next to each other. -/
def withoutGap : List (TableGroup Nat) := [deletedGroup 0 10, loadedGroup 1 11, loadedGroup 2 12]

theorem committed_groups : ∀ g ∈ withGap ++ withoutGap, g.Committed checkpointTransaction := by
  intro g hg
  simp only [withGap,withoutGap,mem_append,mem_cons,not_mem_nil,or_false] at hg
  rcases hg with (rfl | rfl | rfl) | rfl | rfl | rfl <;>
    first | exact loadedGroup_committed _ _ | exact deletedGroup_committed _ _

theorem keepsLiveRows_iff_withGap :
    ((∀ order, order.Perm (schedule true 0 0 0 withGap).1 →
      ∃ result, checkpoint true checkpointTransaction withGap order = .ok result ∧
        KeepsLiveRows withGap result) ↔
    ∀ t ∈ (schedule true 0 0 0 withGap).1, t.GapFree withGap) ∧
    (schedule true 0 0 0 withoutGap).1 = [⟨1, 2, 1, 2, 0⟩] ∧
    ∀ order, order.Perm (schedule true 0 0 0 withoutGap).1 →
      ∃ result, checkpoint true checkpointTransaction withoutGap order = .ok result ∧
        KeepsLiveRows withoutGap result := by
  have htasks : (schedule true 0 0 0 withoutGap).1 = [⟨1,2,1,2,0⟩] := by decide
  refine ⟨checkpoint_keepsLiveRows_iff true checkpointTransaction withGap
    (fun g hg => committed_groups g (mem_append_left _ hg)),htasks,?_⟩
  refine (checkpoint_keepsLiveRows_iff true checkpointTransaction withoutGap
    (fun g hg => committed_groups g (mem_append_right _ hg))).mpr ?_
  rw [htasks]
  intro t ht
  rw [mem_singleton.mp ht]
  intro g hg
  simp [VacuumTask.window,withoutGap] at hg
  rcases hg with rfl | rfl <;> decide

/-- The window counts two row groups and its task walks the first and the dropped one. -/
theorem checkpoint_throws_withGap :
    (∀ g ∈ withGap, g.Committed checkpointTransaction) ∧
      (schedule true 0 0 0 withGap).1 = [⟨0, 2, 1, 2, 0⟩] ∧
      checkpoint true checkpointTransaction withGap (schedule true 0 0 0 withGap).1 =
        .error (.internal
          "Mismatch in row group count vs verify count in RowGroupCollection::Checkpoint") := by
  have htasks : (schedule true 0 0 0 withGap).1 = [⟨0,2,1,2,0⟩] := by decide
  have hcommitted : ∀ g ∈ withGap, g.Committed checkpointTransaction :=
    fun g hg => committed_groups g (mem_append_left _ hg)
  refine ⟨hcommitted,htasks,checkpoint_gap hcommitted ?_⟩
  rw [htasks]
  refine ⟨_,mem_singleton_self _,fun hfree => ?_⟩
  exact hfree (deletedGroup 1 11) (by simp [VacuumTask.window,withGap]) (by decide)

end PredTrans.Storage
