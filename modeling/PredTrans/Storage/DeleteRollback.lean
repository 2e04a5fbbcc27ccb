import PredTrans.Storage.RowDelete

/-! Every delete mark in a table is accounted for: its row is named by an undo entry of its
transaction, or it was set by a call of `DeleteRows` that then threw. Only marks of the second kind
survive a rollback. -/

namespace PredTrans.Storage

open RowVersionManager List Function

/-- Ids of transactions, which commit ids and `NOT_DELETED_ID` are not. -/
abbrev TransactionId := { u : Nat // IsMark u }

/-- A batch, or an undo entry, with the row group it is about. -/
structure TableDelete where
  group : Nat
  info : DeleteInfo
  deriving DecidableEq, Repr

/-- The rows it names, with their row group. -/
def TableDelete.marked (e : TableDelete) : List (Nat × Nat) :=
  e.info.rowNumbers.map (fun r => (e.group, r))

theorem TableDelete.mem_marked {e : TableDelete} :
    (g, r) ∈ e.marked ↔ g = e.group ∧ r ∈ e.info.rowNumbers := by
  simp only [marked,mem_map,Prod.mk.injEq]
  constructor
  · intro h
    obtain ⟨r',hr,hg,he⟩ := h
    exact ⟨hg.symm,he ▸ hr⟩
  · intro h
    exact ⟨r,h.2,h.1.symm,rfl⟩

theorem TableDelete.nodup_marked {e : TableDelete} (h : e.info.rows.Nodup) : e.marked.Nodup := by
  apply List.Nodup.map
  · intro a b hab
    exact (Prod.mk.inj hab).2
  · apply List.Nodup.map _ h
    intro a b hab
    exact Nat.add_left_cancel hab

inductive DeletePhase where
  | running
  /-- A delete has thrown: the transaction can only be rolled back. -/
  | failed
  | rollingBack
  | committing (commitId : Nat)
  | rolledBack
  | committed
  deriving DecidableEq, Repr

/-- What the table knows of a transaction. -/
structure Deleter where
  phase : DeletePhase := .running
  /-- Batches of the current call that are still to be flushed. -/
  todo : List TableDelete := []
  /-- Undo entries that commit or rollback have not worked through. -/
  undo : List TableDelete := []
  /-- Rows that were marked by a call of `DeleteRows` which threw. -/
  leaked : List (Nat × Nat) := []

/-- The rows that are accounted for as marked. -/
def Deleter.held (d : Deleter) : List (Nat × Nat) :=
  d.undo.flatMap TableDelete.marked ++ d.leaked

structure TableState where
  groups : Nat → RowVersionManager
  deleters : TransactionId → Deleter

namespace TableState

/-- One row group and one transaction change. -/
def update (s : TableState) (g : Nat) (m : RowVersionManager) (u : TransactionId) (d : Deleter) :
    TableState where
  groups := Function.update s.groups g m
  deleters := Function.update s.deleters u d

/-- Only a transaction changes. -/
def setDeleter (s : TableState) (u : TransactionId) (d : Deleter) : TableState :=
  { s with deleters := Function.update s.deleters u d }

/-- The undo buffer after a batch has been flushed. -/
def pushed (undo : List TableDelete) (b : TableDelete) (rows : List Nat) : List TableDelete :=
  undo ++ (pushDelete [] b.info.vectorIdx rows).map (TableDelete.mk b.group)

inductive Step (s : TableState) : TableState → Prop
  | call {u g ids} : (s.deleters u).phase = .running → (s.deleters u).todo = [] →
      Step s (s.setDeleter u { s.deleters u with todo := (batches ids).map (TableDelete.mk g) })
  | flush {u b rest rows} : (s.deleters u).phase = .running → (s.deleters u).todo = b :: rest →
      ((s.groups b.group).deleteRows b.info.vectorIdx u b.info.rows).2 = .ok rows →
      Step s (s.update b.group ((s.groups b.group).deleteRows b.info.vectorIdx u b.info.rows).1 u
        { s.deleters u with todo := rest, undo := pushed (s.deleters u).undo b rows })
  -- no undo entry is pushed, but the marks made before the conflict stay
  | throw {u b rest e} : (s.deleters u).phase = .running → (s.deleters u).todo = b :: rest →
      ((s.groups b.group).deleteRows b.info.vectorIdx u b.info.rows).2 = .error e →
      Step s (s.update b.group ((s.groups b.group).deleteRows b.info.vectorIdx u b.info.rows).1 u
        { s.deleters u with
          phase := .failed
          todo := []
          leaked := (s.deleters u).leaked ++ TableDelete.marked ⟨b.group, b.info.vectorIdx,
            (s.groups b.group).freshSlots b.info.vectorIdx u b.info.rows⟩ })
  | startRollback {u} : (s.deleters u).phase = .running ∨ (s.deleters u).phase = .failed →
      (s.deleters u).todo = [] →
      Step s (s.setDeleter u { s.deleters u with phase := .rollingBack })
  -- the undo buffer is walked from its end
  | release {u e rest} : (s.deleters u).phase = .rollingBack → (s.deleters u).undo = rest ++ [e] →
      Step s (s.update e.group
        ((s.groups e.group).commitDelete e.info.vectorIdx notDeletedId e.info.rows) u
        { s.deleters u with undo := rest })
  | finishRollback {u} : (s.deleters u).phase = .rollingBack → (s.deleters u).undo = [] →
      Step s (s.setDeleter u { s.deleters u with phase := .rolledBack })
  | startCommit {u c} : (s.deleters u).phase = .running → (s.deleters u).todo = [] →
      c < transactionIdStart →
      Step s (s.setDeleter u { s.deleters u with phase := .committing c })
  | stamp {u e rest c} : (s.deleters u).phase = .committing c → c < transactionIdStart →
      (s.deleters u).undo = e :: rest →
      Step s (s.update e.group
        ((s.groups e.group).commitDelete e.info.vectorIdx c e.info.rows) u
        { s.deleters u with undo := rest })
  | finishCommit {u c} : (s.deleters u).phase = .committing c → (s.deleters u).undo = [] →
      Step s (s.setDeleter u { s.deleters u with phase := .committed })
  -- calls about appended rows leave the delete marks alone
  | insert {g m} : m.Unmarked → (∀ r, m.deletedAt r = (s.groups g).deletedAt r) →
      Step s { s with groups := Function.update s.groups g m }

abbrev Run : TableState → TableState → Prop := Relation.ReflTransGen Step

/-- No transaction has deleted anything yet. -/
structure Fresh (s : TableState) : Prop where
  unmarked : ∀ g, (s.groups g).Unmarked
  deleted : ∀ g r (u : TransactionId), (s.groups g).deletedAt r ≠ u
  deleters : ∀ u, s.deleters u = {}

structure Accounted (s : TableState) : Prop where
  unmarked : ∀ g, (s.groups g).Unmarked
  todo : ∀ u, ∀ b ∈ (s.deleters u).todo, ∀ i ∈ b.info.rows, i < standardVectorSize
  undo : ∀ u, ∀ e ∈ (s.deleters u).undo, ∀ i ∈ e.info.rows, i < standardVectorSize
  marks : ∀ (u : TransactionId) g r, (s.groups g).deletedAt r = u ↔ (g, r) ∈ (s.deleters u).held
  nodup : ∀ u, (s.deleters u).held.Nodup
  done : ∀ u, (s.deleters u).phase = .rolledBack → (s.deleters u).undo = []

variable {s s' : TableState} {u : TransactionId}

theorem Fresh.accounted (h : s.Fresh) : s.Accounted where
  unmarked := h.unmarked
  todo u := by simp [h.deleters u]
  undo u := by simp [h.deleters u]
  marks u g r := by simp [h.deleters u,h.deleted g r u,Deleter.held]
  nodup u := by simp [h.deleters u,Deleter.held]
  done u := by simp [h.deleters u]

/-- What `Accounted` says of one transaction alone. -/
structure Tidy (d : Deleter) : Prop where
  todo : ∀ b ∈ d.todo, ∀ i ∈ b.info.rows, i < standardVectorSize
  undo : ∀ e ∈ d.undo, ∀ i ∈ e.info.rows, i < standardVectorSize
  nodup : d.held.Nodup
  done : d.phase = .rolledBack → d.undo = []

/-- Every transaction stays tidy when one is replaced by a tidy one. -/
theorem Accounted.tidy_update (h : s.Accounted) (hd : Tidy d) (w : TransactionId) :
    Tidy (Function.update s.deleters u d w) := by
  by_cases hw : w = u
  · subst hw
    simpa using hd
  · rw [update_of_ne hw]
    exact ⟨h.todo w,h.undo w,h.nodup w,h.done w⟩

theorem accounted_of_tidy (hun : ∀ g, (s.groups g).Unmarked) (hd : ∀ u, Tidy (s.deleters u))
    (hmarks : ∀ (u : TransactionId) g r,
      (s.groups g).deletedAt r = u ↔ (g, r) ∈ (s.deleters u).held) : s.Accounted :=
  ⟨hun,fun u => (hd u).todo,fun u => (hd u).undo,hmarks,fun u => (hd u).nodup,fun u => (hd u).done⟩

/-- A transaction moves on without touching a mark. -/
theorem Accounted.setDeleter (h : s.Accounted) (hd : Tidy d)
    (hheld : d.held = (s.deleters u).held) : (s.setDeleter u d).Accounted := by
  apply accounted_of_tidy (s := s.setDeleter u d) h.unmarked (h.tidy_update hd)
  intro w g r
  by_cases hw : w = u
  · subst hw
    simpa [TableState.setDeleter,hheld] using h.marks w g r
  · simpa [TableState.setDeleter,hw] using h.marks w g r

theorem Accounted.update (h : s.Accounted) {m : RowVersionManager} (hm : m.Unmarked) (hd : Tidy d)
    (hother : ∀ w : TransactionId, w ≠ u → ∀ r, m.deletedAt r = w ↔ (s.groups g).deletedAt r = w)
    (hown : ∀ r, m.deletedAt r = u ↔ (g, r) ∈ d.held)
    (hrest : ∀ g' r, g' ≠ g → ((g', r) ∈ d.held ↔ (g', r) ∈ (s.deleters u).held)) :
    (s.update g m u d).Accounted := by
  apply accounted_of_tidy _ (h.tidy_update hd)
  · intro w g' r
    by_cases hw : w = u
    · subst hw
      by_cases hg : g' = g
      · subst hg
        simpa [TableState.update] using hown r
      · simp only [TableState.update,update_self,update_of_ne hg]
        rw [hrest g' r hg]
        exact h.marks w g' r
    · by_cases hg : g' = g
      · subst hg
        simp only [TableState.update,update_self,update_of_ne hw]
        rw [hother w hw r]
        exact h.marks w g' r
      · simp only [TableState.update,update_of_ne hg,update_of_ne hw]
        exact h.marks w g' r
  · intro g'
    by_cases hg : g' = g
    · subst hg
      simpa [TableState.update] using hm
    · simpa [TableState.update,hg] using h.unmarked g'

theorem Accounted.grow (h : s.Accounted) {b : TableDelete} {d : Deleter}
    (hb : ∀ i ∈ b.info.rows, i < standardVectorSize) (hd : d.held.Nodup → Tidy d)
    (hheld : d.held.Perm ((s.deleters u).held ++ TableDelete.marked ⟨b.group, b.info.vectorIdx,
      (s.groups b.group).freshSlots b.info.vectorIdx u b.info.rows⟩)) :
    (s.update b.group ((s.groups b.group).deleteRows b.info.vectorIdx u b.info.rows).1 u
        d).Accounted := by
  have hun := h.unmarked b.group
  apply h.update
  · exact hun.set_vector true _
  · apply hd
    rw [hheld.nodup_iff,nodup_append']
    refine ⟨h.nodup u,TableDelete.nodup_marked freshSlots_spec.1,?_⟩
    -- a held row carries the mark already, so it is not fresh
    intro x hx hfresh
    obtain ⟨g,r⟩ := x
    obtain ⟨hg,hr⟩ := TableDelete.mem_marked.mp hfresh
    subst hg
    exact hun.not_mark_of_fresh hb u.property hr ((h.marks u _ r).mpr hx)
  · intro w hw r
    rw [hun.deleteRows hb w.property]
    have hne : u.val ≠ w.val := fun he => hw (Subtype.ext he.symm)
    simp [hne]
  · intro r
    rw [hun.deleteRows hb u.property,h.marks u b.group r,hheld.mem_iff,mem_append,
      TableDelete.mem_marked]
    simp [DeleteInfo.rowNumbers]
  · intro g' r hg
    rw [hheld.mem_iff,mem_append,TableDelete.mem_marked]
    simp [hg]

/-- Writing over the rows of an undo entry is accounted for once they are dropped. -/
theorem Accounted.shrink (h : s.Accounted) {e : TableDelete} {d : Deleter} {id : Nat}
    (hid : ¬ IsMark id) (he : e ∈ (s.deleters u).undo) (hd : d.held.Nodup → Tidy d)
    (hheld : (s.deleters u).held.Perm (e.marked ++ d.held)) :
    (s.update e.group ((s.groups e.group).commitDelete e.info.vectorIdx id e.info.rows) u
        d).Accounted := by
  have hun := h.unmarked e.group
  have hslots := h.undo u e he
  have hnodup := h.nodup u
  rw [hheld.nodup_iff,nodup_append'] at hnodup
  obtain ⟨-,hnd,hdisj⟩ := hnodup
  have hmine : ∀ r ∈ e.info.rowNumbers, (s.groups e.group).deletedAt r = u := by
    intro r hr
    rw [h.marks u,hheld.mem_iff]
    exact mem_append_left _ (TableDelete.mem_marked.mpr ⟨rfl,hr⟩)
  apply h.update _ (hd hnd)
  · intro w hw r
    rw [hun.commitDelete hslots hid w.property]
    constructor
    · exact fun hr => hr.1
    · intro hr
      refine ⟨hr,fun hin => hw (Subtype.ext ?_)⟩
      exact hr.symm.trans (hmine r hin)
  · intro r
    rw [hun.commitDelete hslots hid u.property,h.marks u,hheld.mem_iff,mem_append]
    constructor
    · intro hr
      exact hr.1.resolve_left (fun hin => hr.2 (TableDelete.mem_marked.mp hin).2)
    · intro hr
      exact ⟨.inr hr,fun hin => hdisj (TableDelete.mem_marked.mpr ⟨rfl,hin⟩) hr⟩
  · intro g' r hg
    rw [hheld.mem_iff,mem_append,TableDelete.mem_marked]
    simp [hg]
  · exact hun.set_vector true _

theorem not_isMark_notDeleted : ¬ IsMark notDeletedId := fun h => lt_irrefl _ h.2

theorem not_isMark_commit (h : c < transactionIdStart) : ¬ IsMark c :=
  fun hc => Nat.not_le_of_lt h hc.1

theorem flatMap_marked_pushed (undo : List TableDelete) (b : TableDelete) (rows : List Nat) :
    (pushed undo b rows).flatMap TableDelete.marked =
      undo.flatMap TableDelete.marked ++ TableDelete.marked ⟨b.group, b.info.vectorIdx, rows⟩ := by
  unfold pushed pushDelete
  by_cases hr : rows = []
  · simp [hr,TableDelete.marked,DeleteInfo.rowNumbers,rowsOf]
  · simp [hr]

theorem deleteRows_ok {m : RowVersionManager} {slots rows : List Nat}
    (h : (m.deleteRows v tid slots).2 = .ok rows) : rows = m.freshSlots v tid slots := by
  rw [deleteRows_eq] at h
  split at h
  · simp at h
  · exact (Except.ok.inj h).symm

theorem accounted_step (h : s.Accounted) (hs : Step s s') : s'.Accounted := by
  cases hs with
  | @call u g ids hphase htodo =>
    refine h.setDeleter ⟨?_,h.undo u,h.nodup u,by simp [hphase]⟩ rfl
    intro b hb
    obtain ⟨b',hb',rfl⟩ := mem_map.mp hb
    exact slots_batchesFrom (by simp) ids b' hb'
  | @flush u b rest rows hphase htodo hok =>
    have hb := h.todo u
    rw [htodo] at hb
    have hrows := deleteRows_ok hok
    refine h.grow (hb b (by simp)) (fun hnd =>
      ⟨fun b' hb' => hb b' (by simp [show b' ∈ rest from hb']),
      ?_,hnd,by simp [hphase]⟩) ?_
    · intro e he
      rcases mem_append.mp he with he | he
      · exact h.undo u e he
      unfold pushDelete at he
      split at he
      · simp at he
      simp only [nil_append,map_cons,map_nil,mem_singleton] at he
      subst he
      intro i hi
      rw [hrows] at hi
      exact hb b (by simp) i (freshSlots_spec.2 i hi).1
    · simp only [Deleter.held,flatMap_marked_pushed,← hrows,append_assoc]
      exact (perm_append_comm).append_left _
  | @throw u b rest e hphase htodo herr =>
    have hb := h.todo u
    rw [htodo] at hb
    refine h.grow (hb b (by simp)) (fun hnd => ⟨by simp,h.undo u,hnd,by simp⟩) ?_
    simp [Deleter.held]
  | @startRollback u | @startCommit u | @finishCommit u =>
    exact h.setDeleter ⟨h.todo u,h.undo u,h.nodup u,by simp⟩ rfl
  | @release u e rest hphase hundo =>
    refine h.shrink not_isMark_notDeleted (by simp [hundo])
      (fun hnd => ⟨h.todo u,?_,hnd,by simp [hphase]⟩) ?_
    · intro e' he'
      exact h.undo u e' (by simp [hundo,show e' ∈ rest from he'])
    · simp only [Deleter.held,hundo,flatMap_append,flatMap_singleton]
      rw [← append_assoc]
      exact (perm_append_comm).append_right _
  | @finishRollback u hphase hundo =>
    exact h.setDeleter ⟨h.todo u,h.undo u,h.nodup u,fun _ => hundo⟩ rfl
  | @stamp u e rest c hphase hc hundo =>
    refine h.shrink (not_isMark_commit hc) (by simp [hundo])
      (fun hnd => ⟨h.todo u,?_,hnd,by simp [hphase]⟩) ?_
    · intro e' he'
      exact h.undo u e' (by simp [hundo,show e' ∈ rest from he'])
    · simp [Deleter.held,hundo]
  | @insert g m hm hsame =>
    refine ⟨?_,h.todo,h.undo,?_,h.nodup,h.done⟩
    · intro g'
      by_cases hg : g' = g
      · subst hg
        simpa using hm
      · simpa [hg] using h.unmarked g'
    · intro w g' r
      by_cases hg : g' = g
      · subst hg
        simp only [update_self,hsame r]
        exact h.marks w g' r
      · simp only [update_of_ne hg]
        exact h.marks w g' r

theorem accounted_run (h : s.Accounted) (hs : Run s s') : s'.Accounted := by
  induction hs with
  | refl => exact h
  | tail _ hstep ih => exact accounted_step ih hstep

/-- The transactions of the examples below. -/
def firstDeleter : TransactionId := ⟨transactionIdStart, by unfold IsMark; decide⟩

def secondDeleter : TransactionId := ⟨transactionIdStart + 1, by unfold IsMark; decide⟩

def loadedTable : TableState where
  groups _ := { start := 0 }
  deleters _ := {}

theorem pushed_append (pre : List TableDelete) (undo : List DeleteInfo) (g v : Nat)
    (slots rows : List Nat) :
    pushed (pre ++ undo.map (TableDelete.mk g)) ⟨g, v, slots⟩ rows =
      pre ++ (pushDelete undo v rows).map (TableDelete.mk g) := by
  unfold pushed pushDelete
  by_cases hr : rows = [] <;> simp [hr]

/-- Undisturbed, the remaining batches of a call run as `flushAll` says. -/
theorem run_flushAll (g : Nat) (bs : List DeleteInfo) (pre : List TableDelete)
    (undo : List DeleteInfo)
    (hphase : (s.deleters u).phase = .running)
    (htodo : (s.deleters u).todo = bs.map (TableDelete.mk g))
    (hundo : (s.deleters u).undo = pre ++ undo.map (TableDelete.mk g)) :
    ∃ s', Run s s' ∧ s'.groups g = (flushAll u (s.groups g) undo bs).1.1 ∧
      (∀ g' ≠ g, s'.groups g' = s.groups g') ∧ (∀ w ≠ u, s'.deleters w = s.deleters w) ∧
      (s'.deleters u).todo = [] ∧
      (s'.deleters u).undo = pre ++ (flushAll u (s.groups g) undo bs).1.2.map (TableDelete.mk g) ∧
      (s'.deleters u).phase =
        if (flushAll u (s.groups g) undo bs).2.isSome then .failed else .running := by
  induction bs generalizing s undo with
  | nil => exact ⟨s,.refl,rfl,fun _ _ => rfl,fun _ _ => rfl,htodo,hundo,hphase⟩
  | cons b bs ih =>
    unfold flushAll
    cases hres : (s.groups g).deleteRows b.vectorIdx u b.rows with
    | mk m result =>
      cases result with
      | error e =>
        refine ⟨_,.single (.throw hphase htodo (by rw [hres])),?_,?_,?_,?_,?_,?_⟩
        · simp [TableState.update,hres]
        · intro g' hg
          simp [TableState.update,hg]
        · intro w hw
          simp [TableState.update,hw]
        · simp [TableState.update]
        · simpa [TableState.update] using hundo
        · simp [TableState.update]
      | ok rows =>
        have hstep := Step.flush hphase htodo (by rw [hres] : _ = Except.ok rows)
        rw [hundo,pushed_append,hres] at hstep
        generalize hd : ({ s.deleters u with
          todo := bs.map (TableDelete.mk g)
          undo := pre ++ (pushDelete undo b.vectorIdx rows).map (TableDelete.mk g) } : Deleter) =
            d at hstep
        have hself : (s.update g m u d).deleters u = d := by simp [TableState.update]
        have hgroup : (s.update g m u d).groups g = m := by simp [TableState.update]
        obtain ⟨s',hrun,hg,hother,hdel,hrest⟩ := ih (pushDelete undo b.vectorIdx rows)
          (by rw [hself,← hd]; exact hphase) (by rw [hself,← hd]) (by rw [hself,← hd])
        rw [hgroup] at hg hrest
        refine ⟨s',.head hstep hrun,hg,?_,?_,hrest⟩
        · intro g' hne
          rw [hother g' hne]
          simp [TableState.update,hne]
        · intro w hne
          rw [hdel w hne]
          simp [TableState.update,hne]

/-- A call of `RowGroup::Delete` is a run in which only its own transaction moves. -/
theorem run_delete (hphase : (s.deleters u).phase = .running) (htodo : (s.deleters u).todo = [])
    (g : Nat) (ids : List Nat) :
    ∃ s', Run s s' ∧ s'.groups g = (RowGroup.delete (s.groups g) [] u ids).1.manager ∧
      (∀ g' ≠ g, s'.groups g' = s.groups g') ∧ (∀ w ≠ u, s'.deleters w = s.deleters w) ∧
      (s'.deleters u).todo = [] ∧
      (s'.deleters u).undo = (s.deleters u).undo ++
        (RowGroup.delete (s.groups g) [] u ids).1.undo.map (TableDelete.mk g) ∧
      (s'.deleters u).phase =
        if (RowGroup.delete (s.groups g) [] u ids).2.isSome then .failed else .running := by
  have hout := RowGroup.outcome_delete (s.groups g) [] u ids
  have hstep := @Step.call s u g ids hphase htodo
  generalize hd : ({ s.deleters u with todo := (batches ids).map (TableDelete.mk g) } : Deleter) = d
    at hstep
  have hself : (s.setDeleter u d).deleters u = d := by simp [TableState.setDeleter]
  obtain ⟨s',hrun,hg,hother,hdel,hrest⟩ := run_flushAll (s := s.setDeleter u d) (u := u) g
    (batches ids)
    (s.deleters u).undo [] (by rw [hself,← hd]; exact hphase) (by rw [hself,← hd])
    (by rw [hself,← hd]; simp)
  have hgroups : (s.setDeleter u d).groups = s.groups := rfl
  rw [hgroups,← hout] at hg hrest
  refine ⟨s',.head hstep hrun,hg,hother,?_,hrest⟩
  intro w hw
  rw [hdel w hw]
  simp [TableState.setDeleter,hw]

theorem run_delete_loadedTable : ∃ s', Run loadedTable s' ∧ s'.groups 0 =
    (RowGroup.delete (loadedTable.groups 0) [] firstDeleter [5, 3000, 6]).1.manager ∧
    s'.deleters secondDeleter = {} := by
  obtain ⟨s',hrun,hgroup,-,hother,-⟩ := @run_delete loadedTable firstDeleter rfl rfl 0 [5,3000,6]
  exact ⟨s',hrun,hgroup,hother _ (by decide)⟩

/-- Appends, their commits and their reverts keep every delete mark: they are insert steps. -/
theorem insert_calls (h : Coherent m n) :
    (∀ T n', n < n' → n' ≤ rowGroupSize → ∃ m', m.appendVersionInfo T n n' = .ok m' ∧
        (∀ v ∈ coveredVectors n n', m'.vectorInfo v ≠ none) ∧
        m'.Unmarked ∧ ∀ r, m'.deletedAt r = m.deletedAt r) ∧
      ∀ a x, LastAppend m n a x →
        ((∀ v ∈ coveredVectors a n, m.vectorInfo v ≠ none) → ∀ c,
          ∃ m', m.commitAppend c a (n - a) = .ok m' ∧
            m'.Unmarked ∧ ∀ r, m'.deletedAt r = m.deletedAt r) ∧
        ((∀ r, a ≤ r → r < n → m.deletedAt r = notDeletedId) →
          (m.revertAppend a).Unmarked ∧ ∀ r, (m.revertAppend a).deletedAt r = m.deletedAt r) := by
  have hun : ∀ {m' : RowVersionManager} {n' : Nat}, Coherent m' n' → m'.Unmarked := by
    intro m' n' hc v info hv
    have := hc.info v
    rw [hv] at this
    exact this.2
  constructor
  · intro T n' hn hfit
    obtain ⟨m',hok,hc,-,hd⟩ := h.append T hn hfit
    exact ⟨m',hok,appendVersionInfo_present hok,hun hc,hd⟩
  intro a x hl
  constructor
  · intro hpresent c
    obtain ⟨m',hok,hc,-,hd⟩ := h.commit_of_present hl hpresent c
    exact ⟨m',hok,hun hc,hd⟩
  intro hfree
  obtain ⟨hc,hkeep⟩ := h.revert hl hfree
  refine ⟨hun hc,?_⟩
  intro r
  by_cases hra : r < a
  · exact (hkeep r hra).2
  · rw [hc.deletedAt_past (by omega)]
    by_cases hrn : r < n
    · exact (hfree r (by omega) hrn).symm
    · exact (h.deletedAt_past (by omega)).symm

/-- Behind a deleted row two more rows are appended, and then committed or reverted. -/
theorem insert_calls_deleted : ∃ m₁ m₂, appendVersionInfo { start := 0 } ⟨0, 0⟩ 0 3 = .ok m₁ ∧
    (m₁.deleteRows 0 firstDeleter [1]).1.appendVersionInfo ⟨secondDeleter, 5⟩ 3 5 = .ok m₂ ∧
    (∃ m₃, m₂.commitAppend 7 3 2 = .ok m₃ ∧ m₃.Unmarked ∧ m₃.deletedAt 1 = firstDeleter) ∧
    (m₂.revertAppend 3).Unmarked ∧ (m₂.revertAppend 3).deletedAt 1 = firstDeleter := by
  have hc₀ : Coherent { start := 0 } 0 := coherent_new (by decide)
  obtain ⟨m₁,hok₁,hc₁,hins₁,hdel₁⟩ := hc₀.append ⟨0,0⟩ (by decide : 0 < 3) (by decide)
  have hfree : ∀ r, m₁.deletedAt r = notDeletedId := hdel₁
  obtain ⟨-,hc,hins,hdel⟩ := hc₁.delete (v := 0) firstDeleter (by decide : [1] ≠ [])
    (by simp [hfree]; decide)
  obtain ⟨m₂,hok₂,hc₂,hins₂,hdel₂⟩ := hc.append ⟨secondDeleter,5⟩ (by decide : 3 < 5) (by decide)
  have hnew : m₁.newlyDeleted 0 firstDeleter [1] = [1] := by
    simp [newlyDeleted,freshRows,hfree]
    decide
  have hlast : LastAppend m₂ 5 3 secondDeleter :=
    ⟨by decide,fun r hr hlt => by rw [hins₂ r hlt,if_pos hr],fun r hr => by
      rw [hins₂ r (by omega),if_neg (by omega),hins,hins₁ r hr,if_pos r.zero_le]
      decide⟩
  have hmark : ∀ r, m₂.deletedAt r = if r = 1 then firstDeleter.val else notDeletedId := by
    intro r
    rw [hdel₂,hdel,hnew,hfree]
    simp [rowsOf]
  obtain ⟨hcommit,hrevert⟩ := (insert_calls hc₂).2 3 secondDeleter hlast
  obtain ⟨m₃,hok₃,hun₃,hdel₃⟩ := hcommit (appendVersionInfo_present hok₂) 7
  obtain ⟨hun,hback⟩ := hrevert fun r hr _ => by rw [hmark,if_neg (by omega)]
  exact ⟨m₁,m₂,hok₁,hok₂,⟨m₃,hok₃,hun₃,by rw [hdel₃,hmark,if_pos rfl]⟩,hun,
    by rw [hback,hmark,if_pos rfl]⟩

/-- After its rollback no row of the table carries the transaction's delete mark,
exactly if no call of `DeleteRows` that threw had marked rows before. -/
theorem rollback_releases_iff {s₀ s : TableState} (h₀ : s₀.Fresh) (hs : Run s₀ s)
    {u : TransactionId}
    (hu : (s.deleters u).phase = .rolledBack) :
    (∀ g r, (s.groups g).deletedAt r ≠ u) ↔ (s.deleters u).leaked = [] := by
  have h := accounted_run h₀.accounted hs
  have hheld : (s.deleters u).held = (s.deleters u).leaked := by
    simp [Deleter.held,h.done u hu]
  constructor
  · intro hfree
    apply eq_nil_iff_forall_not_mem.mpr
    intro x hx
    exact hfree x.1 x.2 ((h.marks u x.1 x.2).mpr (hheld ▸ hx))
  · intro hleak g r hmark
    have hin := (h.marks u g r).mp hmark
    rw [hheld,hleak] at hin
    cases hin

theorem loadedTable_fresh : loadedTable.Fresh where
  unmarked _ _ _ h := by simp [loadedTable] at h
  deleted _ _ u h := u.property.ne_notDeleted h.symm
  deleters _ := rfl

/-- Row 1 of a row group is deleted. -/
def withDelete : TableState :=
  loadedTable.update 0 ((loadedTable.groups 0).deleteRows 0 firstDeleter [1]).1 firstDeleter
    { undo := [⟨0, 0, [1]⟩] }

/-- Another transaction has tried to delete rows 0 and 1, and was rolled back. -/
def withLeak : TableState :=
  withDelete.update 0 ((withDelete.groups 0).deleteRows 0 secondDeleter [0, 1]).1 secondDeleter
    { phase := .rolledBack, leaked := [(0, 0)] }

theorem loadedTable_run_withDelete : Run loadedTable withDelete := by
  have hbatches : batches [1] = [⟨0,[1]⟩] := by decide
  have hcall := @Step.call loadedTable firstDeleter 0 [1] rfl rfl
  refine .tail (.single hcall) ?_
  have hflush := @Step.flush (loadedTable.setDeleter firstDeleter { todo := [⟨0,0,[1]⟩] })
    firstDeleter ⟨0,0,[1]⟩ [] [1] (by simp [setDeleter]) (by simp [setDeleter]) rfl
  simpa [withDelete,TableState.update,setDeleter,pushed,pushDelete,loadedTable,hbatches]
    using hflush

theorem withDelete_run_withLeak : Run withDelete withLeak := by
  have hbatches : batches [0,1] = [⟨0,[0,1]⟩] := by decide
  have hne : secondDeleter ≠ firstDeleter := by decide
  have hnew : withDelete.deleters secondDeleter = {} := by
    simp [withDelete,TableState.update,hne,loadedTable]
  have hcall := @Step.call withDelete secondDeleter 0 [0,1] (by rw [hnew]) (by rw [hnew])
  have hthrow := @Step.throw (withDelete.setDeleter secondDeleter { todo := [⟨0,0,[0,1]⟩] })
    secondDeleter ⟨0,0,[0,1]⟩ [] (.transaction "Conflict on tuple deletion!")
    (by simp [setDeleter]) (by simp [setDeleter]) rfl
  have hfresh : (withDelete.groups 0).freshSlots 0 secondDeleter [0,1] = [0] := by decide
  simp only [setDeleter,update_self,hfresh] at hthrow
  refine .tail (.tail (.tail (.single hcall) hthrow) (.startRollback (u := secondDeleter) ?_ ?_)) ?_
  · exact .inr (by simp [TableState.update])
  · simp [TableState.update]
  have hfinish := @Step.finishRollback (withDelete.update 0
    ((withDelete.groups 0).deleteRows 0 secondDeleter [0,1]).1 secondDeleter
    { phase := .rollingBack, leaked := [(0, 0)] }) secondDeleter
    (by simp [TableState.update]) (by simp [TableState.update])
  simpa [withLeak,TableState.update,setDeleter,TableDelete.marked,DeleteInfo.rowNumbers,rowsOf]
    using hfinish

/-- The transaction that deleted row 1 was rolled back instead. -/
def withRelease : TableState :=
  withDelete.update 0 ((withDelete.groups 0).commitDelete 0 notDeletedId [1]) firstDeleter
    { phase := .rolledBack }

theorem withDelete_run_withRelease : Run withDelete withRelease := by
  have hstart := @Step.startRollback withDelete firstDeleter
    (.inl (by simp [withDelete,TableState.update])) (by simp [withDelete,TableState.update])
  have hrelease := @Step.release (withDelete.setDeleter firstDeleter
    { phase := .rollingBack, undo := [⟨0,0,[1]⟩] }) firstDeleter ⟨0,0,[1]⟩ []
    (by simp [setDeleter]) (by simp [setDeleter])
  have hfinish := @Step.finishRollback (withDelete.update 0
    ((withDelete.groups 0).commitDelete 0 notDeletedId [1]) firstDeleter { phase := .rollingBack })
    firstDeleter (by simp [TableState.update]) (by simp [TableState.update])
  refine .tail (.tail (.single ?_) hrelease) ?_
  · simpa [withDelete,TableState.update,setDeleter] using hstart
  · simpa [withRelease,TableState.update,setDeleter] using hfinish

/-- A conflict leaks a mark, a rollback without one releases all. -/
theorem releases_iff_withLeak :
    ((∀ g r, (withLeak.groups g).deletedAt r ≠ secondDeleter) ↔
      (withLeak.deleters secondDeleter).leaked = []) ∧
    ∀ g r, (withRelease.groups g).deletedAt r ≠ firstDeleter := by
  constructor
  · exact rollback_releases_iff loadedTable_fresh
      (loadedTable_run_withDelete.trans withDelete_run_withLeak)
        (by simp [withLeak,TableState.update])
  · exact (rollback_releases_iff loadedTable_fresh
      (loadedTable_run_withDelete.trans withDelete_run_withRelease)
      (by simp [withRelease,TableState.update])).mpr (by simp [withRelease,TableState.update])

/-- The rolled back transaction keeps row 0 marked, and the next transaction that
deletes it runs into a conflict. -/
theorem rolledBack_row_stays_marked :
    loadedTable.Fresh ∧ Run loadedTable withLeak ∧
      (withLeak.deleters secondDeleter).phase = .rolledBack ∧
      (withLeak.groups 0).deletedAt 0 = secondDeleter ∧
      ((withLeak.groups 0).deleteRows 0 (transactionIdStart + 2) [0]).2 =
        .error (.transaction "Conflict on tuple deletion!") := by
  refine ⟨loadedTable_fresh,loadedTable_run_withDelete.trans withDelete_run_withLeak,?_,?_,?_⟩
  · simp [withLeak,TableState.update]
  · decide
  · rfl

end TableState

end PredTrans.Storage
