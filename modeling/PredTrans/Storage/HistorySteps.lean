import PredTrans.Storage.HistoryInvariant

/-!
# Every step of a history keeps the invariant
-/

namespace PredTrans.Storage

namespace History

open RowVersionManager List Option

variable {s s' : History} {t u c r : Nat} {x y : Txn}

structure Inv (s : History) : Prop where
  coherent : Coherent s.manager s.count
  clock : Clock s
  inserts : Inserts s
  deletes : Deletes s

theorem inv_begin (h : Inv s) (hlock : s.lock = none) (hclock : s.clock < transactionIdStart)
    (hid : s.nextId < notDeletedId) :
    Inv { s with
      txns := setTxn s.txns s.nextId { startTime := s.clock }
      clock := s.clock + 1
      nextId := s.nextId + 1 } := by
  have hkeep : ∀ {u y}, s.txns u = some y →
      setTxn s.txns s.nextId { startTime := s.clock } u = some y := by
    intro u y hy
    rw [setTxn_of_ne (h.clock.ne_nextId hy),hy]
  have hno : ∀ r, s.deleter r ≠ some s.nextId := by
    intro r hd
    obtain ⟨-,y,hy,-⟩ := h.deletes.marked hd
    exact h.clock.ne_nextId hy rfl
  refine ⟨h.coherent,h.clock.begin hlock hclock hid,⟨?_,?_,?_,h.inserts.appended⟩,?_⟩
  · intro p hp
    obtain ⟨h1,y,hy,h2⟩ := h.inserts.owner hp
    exact ⟨h1,y,hkeep hy,h2⟩
  · intro p c hp hst
    obtain ⟨-,y,hy,-,hph⟩ := h.inserts.owner hp
    exact absurd (hph c hst).1 (h.clock.not_stamping hlock hy)
  · intro r hr
    obtain ⟨y,hy,hph⟩ := h.inserts.settled r hr
    exact ⟨y,hkeep hy,hph⟩
  · exact h.deletes.change rfl le_rfl h.deletes.unmarked (fun u _ r => ⟨Iff.rfl,fun _ => rfl⟩)
      (fun r hd => absurd hd (hno r)) ⟨fun e he => absurd he not_mem_nil,nodup_nil,
        nofun,fun _ r hd => absurd hd (hno r),nofun,nofun⟩

/-- A running transaction marks some unmarked rows of one vector, and pushes them as
one undo entry unless its call failed. -/
theorem Deletes.mark (h : Deletes s) (hx : s.txns t = some x) (hphase : x.phase = .active)
    (hrun : x'.phase.Running) (hnd : fresh.Nodup)
    (hfresh : ∀ i ∈ fresh, i < standardVectorSize ∧ v * standardVectorSize + i < s.limit ∧
      s.deleter (v * standardVectorSize + i) = none)
    (hundo : x'.entries = x.undo ∧ (x'.phase.MayAppend → x'.undo = x.undo ∧ fresh = []) ∨
      x'.entries = x.undo ++ [⟨v, fresh⟩] ∧ x'.undo = x.undo ++ [⟨v, fresh⟩] ∧ fresh ≠ [])
    (htxns : s'.txns = setTxn s.txns t x') (hcount : s'.count = s.count)
    (hlimit : s'.limit = s.limit)
    (hmark : ∀ r, s'.deleter r = if r ∈ rowsOf v fresh then some t else s.deleter r)
    (hdel : ∀ r, s'.manager.deletedAt r = if r ∈ rowsOf v fresh then t else s.manager.deletedAt r) :
    Deletes s' := by
  have hentries : x.entries = x.undo := by
    unfold Txn.entries
    rw [hphase]
  have hmay : x.phase.MayAppend := by
    rw [hphase]
    trivial
  have hnone : ∀ r ∈ rowsOf v fresh, s.deleter r = none ∧ r < s.limit := by
    intro r hr
    obtain ⟨i,hi,he⟩ := mem_map.mp hr
    rw [← he]
    exact ⟨(hfresh i hi).2.2,(hfresh i hi).2.1⟩
  have hold : ∀ {r u}, s.deleter r = some u → r ∉ rowsOf v fresh := by
    intro r u hd hr
    rw [(hnone r hr).1] at hd
    cases hd
  have hnew : ∀ r, s'.deleter r = some t ↔ r ∈ rowsOf v fresh ∨ s.deleter r = some t := by
    intro r
    rw [hmark]
    split <;> simp_all
  refine h.change htxns hlimit.ge ?unmarked ?other ?marked
    ⟨?owned,?once,?todo,?complete,?committing,?reverting⟩
  case unmarked =>
    intro r hr hd
    rw [hmark] at hd
    split at hd
    · cases hd
    · rw [hdel,if_neg ‹_›]
      exact h.unmarked r (hcount ▸ hr) hd
  case other =>
    intro u hu r
    rw [hmark,hdel]
    constructor
    · split
      · have := (hnone r ‹_›).1
        simp [this,hu.symm]
      · rfl
    · intro hd
      rw [if_neg (hold hd)]
  case marked =>
    intro r hd
    rw [hlimit]
    rcases (hnew r).mp hd with hr | hd'
    · rw [hdel,if_pos hr]
      exact ⟨(hnone r hr).2,.inl ⟨rfl,hrun.unfinished.not_committed⟩⟩
    · rw [hdel,if_neg (hold hd')]
      exact ⟨(h.marked hd').1,.inl ⟨h.deletedAt_eq hx (by rw [hphase]; exact fun _ => id) hd',
        hrun.unfinished.not_committed⟩⟩
  case owned =>
    intro e he
    have hcase : e ∈ x.entries ∨ (e = ⟨v,fresh⟩ ∧ fresh ≠ []) := by
      rcases hundo with ⟨h1,-⟩ | ⟨h1,-,h3⟩
      · rw [h1,← hentries] at he
        exact .inl he
      · rw [h1,← hentries,mem_append,mem_singleton] at he
        exact he.imp_right (fun he => ⟨he,h3⟩)
    rcases hcase with he | ⟨rfl,hne⟩
    · obtain ⟨h1,h2⟩ := h.owned hx e he
      exact ⟨h1,fun i hi => ⟨(h2 i hi).1,(hnew _).mpr (.inr (h2 i hi).2)⟩⟩
    · exact ⟨hne,fun i hi => ⟨(hfresh i hi).1,(hnew _).mpr (.inl (mem_map.mpr ⟨i,hi,rfl⟩))⟩⟩
  case once =>
    have honce := h.once hx
    rcases hundo with ⟨h1,-⟩ | ⟨h1,-,-⟩
    · rwa [h1,← hentries]
    rw [h1,← hentries,rowsIn,flatMap_append,flatMap_singleton]
    refine nodup_append.mpr ⟨honce,hnd.map (fun i j hij => Nat.add_left_cancel hij),?_⟩
    rintro r hr _ hr' rfl
    obtain ⟨e,hee,hre⟩ := mem_rowsIn.mp hr
    exact hold (h.deleter_of_mem hx hee hre) hr'
  case todo =>
    intro goal todo hp
    rw [hp] at hrun
    exact hrun.elim
  case complete =>
    intro hp r hd
    have hd := (hnew r).mp hd
    rcases hundo with ⟨-,h2⟩ | ⟨-,h2,-⟩
    · obtain ⟨h3,rfl⟩ := h2 hp
      rw [h3]
      exact h.complete hx hmay r (hd.resolve_left not_mem_nil)
    · rw [h2,rowsIn,flatMap_append,flatMap_singleton,mem_append]
      exact hd.symm.imp_left (h.complete hx hmay r)
  case committing | reverting =>
    intro c todo hp
    rw [hp] at hrun
    exact hrun.elim

theorem entries_stamping (h : x.phase = .stamping goal todo) :
    x.entries = if goal = .rollback then todo else x.undo := by
  unfold Txn.entries
  rw [h]
  cases goal <;> rfl

theorem entries_running (h : x.phase.Running) : x.entries = x.undo := by
  unfold Txn.entries
  cases hp : x.phase <;> rw [hp] at h <;> first | rfl | exact h.elim

/-- One undo entry is handled: its rows get the id of the goal. -/
theorem Deletes.stamp (h : Deletes s) (hx : s.txns t = some x) {todo : List DeleteInfo}
    (hphase : x.phase = .stamping goal (e :: todo))
    (htxns : s'.txns = setTxn s.txns t { x with phase := .stamping goal todo })
    (hcount : s'.count = s.count) (hlimit : s'.limit = s.limit)
    (hmark : s'.deleter = s.unmark goal e)
    (hdel : ∀ r, s'.manager.deletedAt r = if r ∈ e.rowNumbers then goal.stampId t else
      s.manager.deletedAt r) :
    Deletes s' := by
  have he : e ∈ x.entries := h.todo hx hphase (mem_cons_self)
  have hent := entries_stamping hphase
  have hent' : ({ x with phase := .stamping goal todo } : Txn).entries =
      if goal = .rollback then todo else x.undo := entries_stamping rfl
  have hsub : ∀ e' ∈ ({ x with phase := .stamping goal todo } : Txn).entries, e' ∈ x.entries := by
    rw [hent,hent']
    split
    · exact fun e' he' => mem_cons_of_mem _ he'
    · exact fun e' he' => he'
  have hmine : ∀ {r}, r ∈ e.rowNumbers → s.deleter r = some t := h.deleter_of_mem hx he
  have hforeign : ∀ {r u}, u ≠ t → s.deleter r = some u → r ∉ e.rowNumbers := by
    intro r u hu hd hr
    rw [hmine hr] at hd
    exact hu (some.inj hd).symm
  have hunmark : ∀ r, s'.deleter r = if goal = .rollback ∧ r ∈ e.rowNumbers then none
      else s.deleter r := by
    intro r
    rw [hmark]
    unfold unmark
    cases goal <;> simp
  have hback : ∀ {r}, s'.deleter r = some t →
      s.deleter r = some t ∧ (goal = .rollback → r ∉ e.rowNumbers) := by
    intro r hd
    rw [hunmark] at hd
    split at hd
    · cases hd
    · rename_i hnot
      exact ⟨hd,fun hg hr => hnot ⟨hg,hr⟩⟩
  -- the rows of other entries of a rollback are different ones
  have hrest : goal = .rollback → (rowsIn todo).Nodup ∧
      ∀ e' ∈ todo, ∀ r ∈ e'.rowNumbers, r ∉ e.rowNumbers := by
    intro hg
    have honce := h.once hx
    rw [hent,if_pos hg,rowsIn,flatMap_cons,nodup_append] at honce
    exact ⟨honce.2.1,fun e' he' r hr hr' => honce.2.2 r hr' r (mem_rowsIn.mpr ⟨e',he',hr⟩) rfl⟩
  have hleft : ∀ {r}, r ∈ rowsIn (e :: todo) → r ∉ e.rowNumbers → r ∈ rowsIn todo := by
    intro r hr hnot
    rw [rowsIn,flatMap_cons,mem_append] at hr
    exact hr.resolve_left hnot
  refine h.change htxns hlimit.ge ?unmarked ?other ?marked
    ⟨?owned,?once,?todo,?complete,?committing,?reverting⟩
  case unmarked =>
    intro r hr hd
    rw [hdel]
    rw [hunmark] at hd
    split at hd
    case isTrue hcase =>
      rw [if_pos hcase.2,hcase.1]
      rfl
    case isFalse =>
      have hr' : r ∉ e.rowNumbers := by
        intro hr'
        rw [hmine hr'] at hd
        cases hd
      rw [if_neg hr']
      exact h.unmarked r (hcount ▸ hr) hd
  case other =>
    intro u hu r
    rw [hunmark,hdel]
    constructor
    · split
      case isTrue hcase => simp [hmine hcase.2,Ne.symm hu]
      case isFalse => rfl
    · intro hd
      rw [if_neg (hforeign hu hd)]
  case marked =>
    intro r hd
    obtain ⟨hd',hroll⟩ := hback hd
    obtain ⟨h1,y,hy,h2⟩ := h.marked hd'
    rw [hx] at hy
    cases hy
    rw [hlimit,hdel]
    rw [hphase] at h2
    refine ⟨h1,?_⟩
    cases goal with
    | rollback =>
      rw [if_neg (hroll rfl)]
      exact Or.inl ⟨(h2.resolve_right (fun hf => hf)).1,fun c hc => by cases hc⟩
    | commit c =>
      split
      · exact Or.inr rfl
      · exact h2.imp (fun h3 => ⟨h3.1,fun c hc => by cases hc⟩) id
    | revert c =>
      split
      · exact Or.inl ⟨rfl,fun c hc => by cases hc⟩
      · exact h2.imp (fun h3 => ⟨h3.1,fun c hc => by cases hc⟩) id
  case owned =>
    intro e' he'
    obtain ⟨h1,h2⟩ := h.owned hx e' (hsub e' he')
    refine ⟨h1,fun i hi => ⟨(h2 i hi).1,?_⟩⟩
    rw [hunmark,if_neg]
    · exact (h2 i hi).2
    · rintro ⟨hg,hr⟩
      rw [hent',if_pos hg] at he'
      exact (hrest hg).2 e' he' _ (mem_map.mpr ⟨i,hi,rfl⟩) hr
  case once =>
    have honce := h.once hx
    rw [hent']
    split
    case isTrue hg => exact (hrest hg).1
    case isFalse hg => rwa [hent,if_neg hg] at honce
  case todo =>
    intro goal' todo' hp
    cases hp
    have hall := h.todo hx hphase
    rw [hent']
    split
    · exact fun e' he' => he'
    · rename_i hg
      rw [hent,if_neg hg] at hall
      exact fun e' he' => hall (mem_cons_of_mem _ he')
  case complete =>
    intro hp r hd
    have hmay : x.phase.MayAppend := by
      rw [hphase]
      cases goal <;> exact hp
    exact h.complete hx hmay r (hback hd).1
  case committing =>
    intro c todo' hp r hd
    cases hp
    rw [hdel]
    split
    · exact Or.inl rfl
    · exact (h.committing hx hphase r (hback hd).1).imp_right (fun hr => hleft hr ‹_›)
  case reverting =>
    intro c todo' hp r hd
    cases hp
    rw [hdel]
    split
    · exact Or.inl rfl
    · exact (h.reverting hx hphase r (hback hd).1).imp_right (fun hr => hleft hr ‹_›)

theorem nodup_rowsIn_reverse (h : (rowsIn entries).Nodup) : (rowsIn entries.reverse).Nodup :=
  ((reverse_perm entries).flatMap_right _).nodup_iff.mpr h

/-- The slots of a delete that the history lets a transaction touch. -/
theorem Inv.deletable (h : Inv s) {slots : List Nat}
    (hslots : ∀ i ∈ slots, i < standardVectorSize ∧ v * standardVectorSize + i < s.limit ∧
      s.deleter (v * standardVectorSize + i) ≠ some 0) :
    ∀ i ∈ slots, v * standardVectorSize + i < s.count ∧ i < standardVectorSize ∧
      s.manager.deletedAt (v * standardVectorSize + i) ≠ 0 := by
  intro i hi
  obtain ⟨h1,h2,h3⟩ := hslots i hi
  have hle := h.inserts.limit_le
  refine ⟨by omega,h1,?_⟩
  cases hd : s.deleter (v * standardVectorSize + i) with
  | none =>
    rw [h.deletes.unmarked _ (by omega) hd]
    decide
  | some u =>
    apply (h.deletes.mark_ne h.clock hd).2
    intro hu
    rw [hd,hu] at h3
    exact h3 rfl

theorem Deletes.deleter_none (h : Deletes s) (hr : s.limit ≤ r) : s.deleter r = none := by
  cases hd : s.deleter r with
  | none => rfl
  | some u => exact absurd (h.marked hd).1 (not_lt.mpr hr)

theorem inv_revertAppend (h : Inv s) (hp : s.pending = some ⟨t, a, stamped⟩) :
    Inv { s with manager := s.manager.revertAppend a, count := a, pending := none } := by
  have hlast := h.inserts.lastAppend h.clock hp
  have hlim := limit_eq hp
  have hund : ∀ r, a ≤ r → s.deleter r = none :=
      fun r hr => h.deletes.deleter_none (hlim.trans_le hr)
  obtain ⟨hcoh,hsame⟩ := h.coherent.revert hlast
    (fun r h1 h2 => h.deletes.unmarked r h2 (hund r h1))
  have hlt := hlast.start_lt
  dsimp only at hlt hcoh hsame
  refine ⟨hcoh,{ h.clock with },⟨?_,?_,?_,?_⟩,?_⟩
  · exact nofun
  · exact nofun
  · intro r hr
    rw [(hsame r hr).1]
    exact h.inserts.settled r (by rw [hlim]; exact hr)
  · exact nofun
  refine h.deletes.frame rfl ?_ ?_ rfl (by rw [hlim]; exact le_refl _)
  · intro r hr hd
    dsimp only at hr ⊢
    rw [(hsame r hr).2]
    exact h.deletes.unmarked r (by omega) hd
  · intro r hd
    have hr : r < a := not_le.mp fun hge => hd (hund r hge)
    exact (hsame r hr).2

section

variable (h : Inv s) (hx : s.txns t = some x)
include h hx

theorem inv_append (hphase : x.phase.MayAppend) (hnone : s.pending = none) (hk : 0 < k)
    (hfit : s.count + k ≤ rowGroupSize)
    (hm : s.manager.appendVersionInfo ⟨t, x.startTime⟩ s.count (s.count + k) = .ok m) :
    Inv { s with
      manager := m
      count := s.count + k
      pending := some ⟨t, s.count, none⟩
      inserter := fun r => if s.count ≤ r then t else s.inserter r
      deleter := fun r => if s.count ≤ r then none else s.deleter r } := by
  obtain ⟨m',hok,hcoh,hins,hdel⟩ := h.coherent.append ⟨t,x.startTime⟩
    (Nat.lt_add_of_pos_right hk) hfit
  rw [hm] at hok
  cases hok
  have hlim := limit_none hnone
  have hdeleter : (fun r => if s.count ≤ r then none else s.deleter r) = s.deleter := by
    funext r
    split
    · exact (h.deletes.deleter_none (hlim.trans_le ‹_›)).symm
    · rfl
  rw [hdeleter]
  refine ⟨hcoh,{ h.clock with },⟨?_,?_,?_,?_⟩,?_⟩
  · intro p hp
    cases hp
    refine ⟨Nat.lt_add_of_pos_right hk,x,hx,hphase.unfinished,?_⟩
    intro c hc
    cases hc
  · intro p c hp hst
    cases hp
    cases hst
  · intro r hr
    have hr : r < s.count := hr
    dsimp only
    rw [if_neg (by omega),hins r (by omega),if_neg (by omega)]
    exact h.inserts.settled r (hlim ▸ hr)
  · intro p hp r h1 h2
    cases hp
    dsimp only at h1 h2 ⊢
    rw [if_pos h1,hins r h2,if_pos h1]
    exact ⟨rfl,rfl⟩
  · refine h.deletes.frame rfl ?_ (fun r _ => hdel r) rfl (by rw [hlim]; exact le_refl _)
    intro r hr hd
    dsimp only
    rw [hdel]
    by_cases hrc : r < s.count
    · exact h.deletes.unmarked r hrc hd
    · exact h.coherent.deletedAt_past (by omega)

theorem inv_commitAppend (hphase : x.phase = .stamping (.commit c) todo)
    (hp : s.pending = some ⟨t, a, none⟩) (hm : s.manager.commitAppend c a (s.count - a) = .ok m) :
    Inv { s with manager := m, pending := some ⟨t, a, some c⟩ } := by
  have hlast := h.inserts.lastAppend h.clock hp
  obtain ⟨m',hok,hcoh,hins,hdel⟩ :=
    h.coherent.commit hlast (h.inserts.id_ne_zero h.clock hp rfl) c
  rw [hm] at hok
  cases hok
  dsimp only at hins
  have hlim := limit_eq hp
  have hcm : x.phase.Committing c := by
    rw [hphase]
    rfl
  have ht : t ≠ 0 := h.clock.ne_zero hx (by rw [hphase]; trivial)
  refine ⟨hcoh,{ h.clock with },⟨?_,?_,?_,?_⟩,?_⟩
  · intro p hp'
    cases hp'
    refine ⟨hlast.start_lt,x,hx,by rw [hphase]; trivial,?_⟩
    intro c' hc'
    cases hc'
    refine ⟨hcm.stamping,?_⟩
    intro c'' todo' hph
    rw [hphase] at hph
    cases hph
    rfl
  · intro p c' hp' hst
    cases hp'
    cases hst
    exact ⟨(h.clock.stamp hx ht hcm.stamp).2,fun u y hy => h.clock.newest hx hcm hy⟩
  · intro r hr
    have hr : r < a := hr
    have hlt : r < s.count := by
      have := hlast.start_lt
      dsimp only at this
      omega
    rw [hins r hlt,if_neg (by omega)]
    exact h.inserts.settled r (by rw [hlim]; exact hr)
  · intro p hp' r h1 h2
    cases hp'
    rw [hins r h2,if_pos h1]
    exact ⟨(h.inserts.appended hp r h1 h2).1,rfl⟩
  · refine h.deletes.frame rfl ?_ (fun r _ => hdel r) rfl (by rw [hlim]; exact le_refl _)
    intro r hr hd
    rw [hdel]
    exact h.deletes.unmarked r hr hd

/-- The code takes exactly the rows that are unmarked in the history. -/
theorem Inv.newlyDeleted_eq (hrun : x.phase.Running)
    (hslots : ∀ i ∈ slots, v * standardVectorSize + i < s.count) :
    s.manager.newlyDeleted v t slots =
      freshRows (fun i => s.deleter (v * standardVectorSize + i) == some t)
        (fun i => s.deleter (v * standardVectorSize + i) == none) slots := by
  apply freshRows_congr
  · intro i hi
    rw [Bool.eq_iff_iff,beq_iff_eq,beq_iff_eq]
    exact h.deletes.own_iff h.clock hx hrun (hslots i hi)
  · intro i hi _
    rw [Bool.eq_iff_iff,beq_iff_eq,beq_iff_eq]
    exact h.deletes.free_iff h.clock (hslots i hi)

theorem inv_delete {slots : List Nat} (hphase : x.phase = .active) (hne : slots ≠ [])
    (hslots : ∀ i ∈ slots, i < standardVectorSize ∧ v * standardVectorSize + i < s.limit ∧
      s.deleter (v * standardVectorSize + i) ≠ some 0) :
    Inv { s with
      manager := (s.manager.deleteRows v t slots).1
      deleter := s.markDeleted t v slots
      txns := setTxn s.txns t (x.afterDelete v (s.manager.deleteRows v t slots).2) } := by
  have hrun : x.phase.Running := by
    rw [hphase]
    trivial
  have hrow := h.deletable hslots
  obtain ⟨hres,hcoh,hins,hdel⟩ := h.coherent.delete t hne hrow
  have hfresh := h.newlyDeleted_eq hx hrun (fun i hi => (hrow i hi).1)
  have hspec := @freshRows_spec (fun i => s.deleter (v * standardVectorSize + i) == some t)
    (fun i => s.deleter (v * standardVectorSize + i) == none) slots
  rw [← hfresh] at hspec
  have hx'run := afterDelete_running hphase v (s.manager.deleteRows v t slots).2
  have hx'start := afterDelete_startTime x v (s.manager.deleteRows v t slots).2
  refine ⟨hcoh,h.clock.update_running hx rfl rfl hx'start hrun hx'run rfl rfl,?_,?_⟩
  · refine h.inserts.update hx rfl hx'start hins rfl rfl rfl le_rfl ?_ (fun _ => hrun) ?_
    · intro c
      constructor
      · intro hc
        rw [hphase] at hc
        cases hc
      · exact fun hc => absurd hc (hx'run.unfinished.not_committed c)
    · intro p _ _
      refine ⟨hx'run.unfinished,fun hst => absurd hrun hst.not_running,fun c todo hst => ?_⟩
      exact absurd hrun hst.not_running
  · refine h.deletes.mark hx hphase hx'run hspec.1 ?_ ?_ rfl rfl rfl ?_ hdel
    · intro i hi
      obtain ⟨h1,-,h3⟩ := hspec.2 i hi
      exact ⟨(hslots i h1).1,(hslots i h1).2.1,by simpa using h3⟩
    · rw [hres]
      split
      · exact .inl ⟨rfl,fun ha => ha.elim⟩
      cases s.manager.newlyDeleted v t slots with
      | nil =>
        refine .inl ⟨?_,fun _ => ⟨rfl,rfl⟩⟩
        simp [Txn.afterDelete,Txn.entries,hphase]
      | cons r rest =>
        refine .inr ⟨?_,rfl,cons_ne_nil _ _⟩
        simp [Txn.afterDelete,Txn.entries,hphase]
    · intro r
      rw [hfresh]
      rfl

theorem inv_stamp (hphase : x.phase = .stamping goal (e :: todo)) :
    Inv { s with
      manager := s.manager.commitDelete e.vectorIdx (goal.stampId t) e.rows
      deleter := s.unmark goal e
      txns := setTxn s.txns t { x with phase := .stamping goal todo } } := by
  have he : e ∈ x.entries := h.deletes.todo hx hphase mem_cons_self
  have ht : t ≠ 0 := h.clock.ne_zero hx (by rw [hphase]; trivial)
  obtain ⟨hne,hrows⟩ := h.deletes.owned hx e he
  obtain ⟨hcoh,hins,hdel⟩ := h.coherent.commitDelete (goal.stampId t) hne (by
    intro i hi
    obtain ⟨h1,h2⟩ := hrows i hi
    have h3 := (h.deletes.marked h2).1
    have h4 := h.inserts.limit_le
    have h5 := h.deletes.mark_ne h.clock h2
    exact ⟨by omega,h1,h5.2 ht,h5.1⟩)
  refine ⟨hcoh,clock_step h.clock (.stamp hx hphase),?_,?_⟩
  · refine h.inserts.update hx rfl rfl hins rfl rfl rfl le_rfl ?_ nofun ?_
    · intro c
      rw [hphase]
      constructor <;> intro hc <;> cases hc
    · intro p _ _
      refine ⟨trivial,fun _ => trivial,fun c todo' _ hp => ?_⟩
      cases hp
      exact ⟨_,hphase⟩
  · exact h.deletes.stamp hx hphase rfl rfl rfl rfl hdel

/-- A change of phase that leaves the manager and the marks alone. -/
theorem Inv.move {clock : Nat} {lock : Option Nat}
    (hclock : Clock { s with txns := setTxn s.txns t { x with phase := p }, clock := clock, lock :=
      lock }) (hle : s.clock ≤ clock) (hxp : x.phase.Unfinished) (hp : ∀ c, p ≠ .committed c)
    (hrun : p.Running → x.phase.Running)
    (howner : ∀ q, s.pending = some q → q.owner = t → p.Unfinished ∧ (x.phase.Stamping →
      p.Stamping) ∧ ∀ c todo, x.phase.Stamping → p = .stamping (.commit c) todo →
      ∃ todo', x.phase = .stamping (.commit c) todo')
    (hmark : ∀ r, s.deleter r = some t → s.manager.deletedAt r = t ∨
      p.Stamp (s.manager.deletedAt r))
    (hent : ({ x with phase := p } : Txn).entries ⊆ x.entries)
    (honce : (rowsIn ({ x with phase := p } : Txn).entries).Nodup)
    (htodo : ∀ goal todo, p = .stamping goal todo → todo ⊆ ({ x with phase := p } : Txn).entries)
    (hact : p.MayAppend → x.phase.MayAppend)
    (hcommit : ∀ c todo, p = .stamping (.commit c) todo → ∀ r, s.deleter r = some t →
      s.manager.deletedAt r = c ∨ r ∈ rowsIn todo)
    (hrevert : ∀ c todo, p = .stamping (.revert c) todo → ∀ r, s.deleter r = some t →
      s.manager.deletedAt r = t ∨ r ∈ rowsIn todo) :
    Inv { s with txns := setTxn s.txns t { x with phase := p }, clock := clock, lock := lock } := by
  refine ⟨h.coherent,hclock,?_,?_⟩
  · refine h.inserts.update hx rfl rfl (fun _ => rfl) rfl rfl rfl hle ?_ hrun howner
    intro c
    constructor
    · exact fun hc => absurd hc (hxp.not_committed c)
    · exact fun hc => absurd hc (hp c)
  · refine h.deletes.update hx rfl rfl le_rfl (fun _ => rfl) rfl ?_ hent honce htodo
      (fun ha => ⟨hact ha,rfl⟩) hcommit hrevert
    intro r hd
    exact (hmark r hd).imp (fun he => ⟨he,hp⟩) id

theorem inv_startCommit (hphase : x.phase = .active) (hlock : s.lock = none)
    (hclock : s.clock < transactionIdStart) :
    Inv { s with
      txns := setTxn s.txns t { x with phase := .stamping (.commit s.clock) x.undo }
      clock := s.clock + 1
      lock := some t } := by
  have hrun : x.phase.Running := by
    rw [hphase]
    trivial
  have hent := entries_running hrun
  refine h.move hx (clock_step h.clock (.startCommit hx hphase hlock hclock)) (Nat.le_succ _)
    hrun.unfinished nofun nofun ?_ ?_ (hent ▸ List.Subset.refl _)
    ?_ ?_ (fun _ => by rw [hphase]; trivial) ?_ nofun
  · exact fun q _ _ => ⟨trivial,fun _ => trivial,fun c todo hst => absurd hrun hst.not_running⟩
  · exact fun r hd => .inl (h.deletes.deletedAt_eq hx hrun.not_stamp hd)
  · have honce := h.deletes.once hx
    rwa [hent] at honce
  · intro goal todo hp
    cases hp
    exact List.Subset.refl _
  · intro c todo hp r hd
    cases hp
    exact .inr (h.deletes.complete hx (by rw [hphase]; trivial) r hd)

theorem inv_fail {todo visited : List DeleteInfo} (hphase : x.phase = .stamping (.commit c) todo)
    (hundo : visited ⊆ x.undo)
    (hall : ∀ r, s.deleter r = some t → s.manager.deletedAt r ≠ t → r ∈ rowsIn visited) :
    Inv { s with txns := setTxn s.txns t { x with phase := .stamping (.revert c) visited } } := by
  have hent : x.entries = x.undo := entries_stamping hphase
  refine h.move hx (clock_step h.clock (.fail visited hx hphase hundo hall)) (le_refl _)
    (by rw [hphase]; trivial) (fun c hc => by cases hc) (fun hr => hr.elim) ?_ ?_
    (hent ▸ List.Subset.refl _) ?_ ?_ (fun ha => ha.elim) (fun c todo hp => by cases hp) ?_
  · exact fun q _ _ => ⟨trivial,fun _ => trivial,fun c todo _ hp => by cases hp⟩
  · intro r hd
    obtain ⟨-,y,hy,hcase⟩ := h.deletes.marked hd
    rw [hx] at hy
    cases hy
    rw [hphase] at hcase
    exact hcase.imp And.left id
  · have honce := h.deletes.once hx
    rwa [hent] at honce
  · intro goal todo hp
    cases hp
    exact hundo
  · intro c' todo' hp r hd
    cases hp
    by_cases he : s.manager.deletedAt r = t
    · exact Or.inl he
    · exact Or.inr (hall r hd he)

/-- Entering the rollback, with all marks back at the transaction id. -/
theorem inv_toRollback (hxp : x.phase.Unfinished) (hent : x.entries = x.undo)
    (hmark : ∀ r, s.deleter r = some t → s.manager.deletedAt r = t) {lock : Option Nat}
    (hclock : Clock { s with
      txns := setTxn s.txns t { x with phase := .stamping .rollback x.undo.reverse }, lock :=
        lock }) :
    Inv { s with
      txns := setTxn s.txns t { x with phase := .stamping .rollback x.undo.reverse }
      lock := lock } := by
  have hrev : ({ x with phase := .stamping .rollback x.undo.reverse } : Txn).entries =
      x.undo.reverse := rfl
  refine h.move hx hclock le_rfl hxp nofun nofun ?_
    (fun r hd => .inl (hmark r hd)) ?_ ?_ ?_ nofun nofun
    nofun
  · exact fun q _ _ => ⟨trivial,fun _ => trivial,nofun⟩
  · rw [hrev,hent]
    exact fun e he => mem_reverse.mp he
  · have honce := h.deletes.once hx
    rw [hent] at honce
    rw [hrev]
    exact nodup_rowsIn_reverse honce
  · intro goal todo hp
    cases hp
    exact List.Subset.refl _

theorem inv_finishCommit (hphase : x.phase = .stamping (.commit c) [])
    (hp : ∀ p, s.pending = some p → p.owner = t → p.stamp ≠ none) :
    Inv { s with
      txns := setTxn s.txns t { x with phase := .committed c }
      pending := s.pending.filter (fun p => p.owner ≠ t)
      lock := none } := by
  have hst : x.phase.Stamping := by
    rw [hphase]
    trivial
  have hun : x.phase.Unfinished := by
    rw [hphase]
    trivial
  have hlock := h.clock.locked hx hst
  have hkeep : ∀ {u d}, s.Committed u d →
      ∃ y, setTxn s.txns t { x with phase := .committed c } u = some y ∧
          y.phase = .committed d := by
    intro u d hu
    obtain ⟨y,hy,hph⟩ := hu
    have hne : u ≠ t := by
      intro he
      rw [he,hx] at hy
      cases hy
      exact hun.not_committed d hph
    exact ⟨y,by rw [setTxn_of_ne hne,hy],hph⟩
  have hpend : ∀ {q}, s.pending.filter (fun p => p.owner ≠ t) = some q →
      s.pending = some q ∧ q.owner ≠ t := by
    intro q hq
    rw [filter_eq_some_iff] at hq
    exact ⟨hq.1,by simpa using hq.2⟩
  -- another transaction cannot have stamped its append: it does not hold the lock
  have hfree : ∀ {q}, s.pending = some q → q.owner ≠ t → q.stamp = none := by
    intro q hq hne
    cases hs : q.stamp with
    | none => rfl
    | some d =>
      obtain ⟨-,y,hy,-,hst'⟩ := h.inserts.owner hq
      have := h.clock.locked hy (hst' d hs).1
      rw [hlock] at this
      exact absurd (some.inj this).symm hne
  refine ⟨h.coherent,clock_step h.clock (.finishCommit hx hphase hp),⟨?_,?_,?_,?_⟩,?_⟩
  · intro q hq
    obtain ⟨hq,hne⟩ := hpend hq
    obtain ⟨h1,y,hy,h2,h3⟩ := h.inserts.owner hq
    exact ⟨h1,y,(setTxn_of_ne hne).trans hy,h2,h3⟩
  · intro q d hq hs
    obtain ⟨hq,hne⟩ := hpend hq
    rw [hfree hq hne] at hs
    cases hs
  · intro r hr
    dsimp only
    by_cases hlim : r < s.limit
    · exact hkeep (h.inserts.settled r hlim)
    -- the rows of the transaction's own append are settled now
    cases hq : s.pending with
    | none =>
      have hr : r < limit { s with
        txns := setTxn s.txns t { x with phase := .committed c }
        pending := s.pending.filter (fun p => p.owner ≠ t)
        lock := none } := hr
      unfold limit at hr hlim
      rw [hq] at hr hlim
      exact absurd hr hlim
    | some q =>
      have hfirst : ¬ r < q.firstRow := by
        rwa [limit_eq hq] at hlim
      by_cases ho : q.owner = t
      · have hcount : r < s.count := by
          unfold limit at hr
          dsimp only at hr
          rw [hq,filter_some,if_neg (by simpa using ho)] at hr
          exact hr
        obtain ⟨h1,h2⟩ := h.inserts.appended hq r (by omega) hcount
        obtain ⟨-,y,hy,-,h3⟩ := h.inserts.owner hq
        rw [ho,hx] at hy
        cases hy
        cases hs : q.stamp with
        | none => exact absurd hs (hp q hq ho)
        | some d =>
          have hd := (h3 d hs).2 c [] hphase
          rw [hs,getD_some,← hd] at h2
          rw [h1,h2,ho]
          exact ⟨_,setTxn_self _ _ _,rfl⟩
      · unfold limit at hr
        dsimp only at hr
        rw [hq,filter_some,if_pos (by simpa using ho)] at hr
        exact absurd hr hfirst
  · intro q hq r h1 h2
    obtain ⟨hq,-⟩ := hpend hq
    exact h.inserts.appended hq r h1 h2
  · have hle := h.inserts.limit_le
    refine h.deletes.update hx rfl rfl ?_ (fun _ => rfl) rfl ?_ nofun
      nodup_nil nofun nofun
      nofun nofun
    · unfold limit at hle ⊢
      dsimp only
      cases hq : s.pending with
      | none => exact le_rfl
      | some q =>
        rw [hq] at hle
        rw [filter_some]
        by_cases ho : q.owner = t
        · rw [if_neg (by simpa using ho)]
          exact hle
        · rw [if_pos (by simpa using ho)]
    · intro r hd
      right
      rcases h.deletes.committing hx hphase r hd with h1 | h1
      · exact h1.symm
      · cases h1

theorem inv_finishRollback (hphase : x.phase = .stamping .rollback [])
    (hp : ∀ p, s.pending = some p → p.owner ≠ t) :
    Inv { s with txns := setTxn s.txns t { x with phase := .aborted }, lock := none } := by
  refine h.move hx (clock_step h.clock (.finishRollback hx hphase hp)) le_rfl
    (by rw [hphase]; trivial) nofun nofun
    (fun q hq ho => absurd ho (hp q hq)) ?_ nofun nodup_nil
    nofun nofun nofun
    nofun
  intro r hd
  exact .inl (h.deletes.deletedAt_eq hx (by rw [hphase]; exact fun _ => id) hd)

end

theorem inv_step (h : Inv s) (hs : Step s s') : Inv s' := by
  cases hs with
  | begin hlock hclock hid => exact inv_begin h hlock hclock hid
  | append hx hphase hnone hk hfit hm => exact inv_append h hx hphase hnone hk hfit hm
  | delete hx hphase hne hslots => exact inv_delete h hx hphase hne hslots
  | startCommit hx hphase hlock hclock => exact inv_startCommit h hx hphase hlock hclock
  | commitAppend hx hphase hp hm => exact inv_commitAppend h hx hphase hp hm
  | stamp hx hphase => exact inv_stamp h hx hphase
  | fail visited hx hphase hundo hall => exact inv_fail h hx hphase hundo hall
  | startRollback hx hphase hlock =>
    exact inv_toRollback h hx hphase.unfinished (entries_running hphase)
      (fun r hd => h.deletes.deletedAt_eq hx hphase.not_stamp hd)
      (clock_step h.clock (.startRollback hx hphase hlock))
  | revertAppend hx hphase hp => exact inv_revertAppend h hp
  | finishCommit hx hphase hp => exact inv_finishCommit h hx hphase hp
  | finishRevert hx hphase =>
    refine inv_toRollback h hx (by rw [hphase]; trivial) (entries_stamping hphase) ?_
      (clock_step h.clock (.finishRevert hx hphase))
    intro r hd
    rcases h.deletes.reverting hx hphase r hd with h1 | h1
    · exact h1
    · cases h1
  | finishRollback hx hphase hp => exact inv_finishRollback h hx hphase hp

theorem inv_run (h : Inv s) (hr : Run s s') : Inv s' := by
  induction hr with
  | refl => exact h
  | tail _ hs ih => exact inv_step ih hs

end History

end PredTrans.Storage
