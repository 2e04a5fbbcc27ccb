import PredTrans.Storage.VersionHistory

/-! The three parts of the invariant: the numbers handed out by the transaction manager, the
inserter ids of the rows, and their delete marks with the undo buffers that cover them. -/

namespace PredTrans.Storage

/-- The commit id that the marks of a transaction may carry in this phase. -/
def Phase.Stamp (c : Nat) : Phase → Prop
  | committed c' => c' = c
  | stamping (.commit c') _ => c' = c
  | stamping (.revert c') _ => c' = c
  | _ => False

def Phase.Stamping : Phase → Prop
  | stamping _ _ => True
  | _ => False

theorem Phase.Committing.stamp {p : Phase} (h : p.Committing c) : p.Stamp c := by
  cases p with
  | stamping goal todo => cases goal <;> exact h
  | _ => exact h.elim

theorem Phase.Committing.stamping {p : Phase} (h : p.Committing c) : p.Stamping := by
  cases p with
  | stamping goal todo => trivial
  | _ => exact h.elim

theorem Phase.Running.unfinished {p : Phase} (h : p.Running) : p.Unfinished := by
  cases p <;> trivial

theorem Phase.Stamping.not_running {p : Phase} (h : p.Stamping) : ¬ p.Running := by
  cases p <;> first | exact h.elim | exact id

theorem Phase.Unfinished.not_committed {p : Phase} (h : p.Unfinished) (c : Nat) :
    p ≠ .committed c := by
  intro he
  rw [he] at h
  exact h

theorem Phase.MayAppend.unfinished {p : Phase} (h : p.MayAppend) : p.Unfinished := by
  cases p with
  | stamping goal todo | active => trivial
  | _ => exact h.elim

theorem Phase.Running.not_stamp {p : Phase} (h : p.Running) (c : Nat) : ¬ p.Stamp c := by
  cases p <;> first | exact h.elim | exact id

theorem transactionIdStart_lt : transactionIdStart < notDeletedId := by decide

namespace History

open RowVersionManager Option

variable {s s' : History} {t u c r : Nat} {x y : Txn}

structure Clock (s : History) : Prop where
  clock_ge : 2 ≤ s.clock
  clock_le : s.clock ≤ transactionIdStart
  id_ge : transactionIdStart ≤ s.nextId
  id_le : s.nextId ≤ notDeletedId
  loader : s.txns 0 = some { startTime := 0, phase := .committed 0 }
  txn : ∀ {t x}, s.txns t = some x → t ≠ 0 → transactionIdStart ≤ t ∧ t < s.nextId ∧
    2 ≤ x.startTime ∧ x.startTime < s.clock
  stamp : ∀ {t x c}, s.txns t = some x → t ≠ 0 → x.phase.Stamp c → x.startTime < c ∧ c < s.clock
  locked : ∀ {t x}, s.txns t = some x → x.phase.Stamping → s.lock = some t
  holder : ∀ {t}, s.lock = some t → ∃ x, s.txns t = some x ∧ x.phase.Stamping
  newest : ∀ {t x c u y}, s.txns t = some x → x.phase.Committing c → s.txns u = some y →
    (y.phase.Running → y.startTime < c) ∧ ∀ c', y.phase = .committed c' → c' < c

section

variable (h : Clock s) (hx : s.txns t = some x)
include h hx

theorem Clock.ne_zero (hp : x.phase.Unfinished) : t ≠ 0 := by
  intro he
  rw [he,h.loader] at hx
  cases hx
  exact hp

theorem Clock.ne_nextId : t ≠ s.nextId := by
  have hge := h.id_ge
  by_cases ht : t = 0
  · have : 0 < transactionIdStart := by decide
    omega
  · have := (h.txn hx ht).2.1
    omega

/-- An unfinished transaction has the numbers of a valid one. -/
theorem Clock.valid (ht : t ≠ 0) : (⟨t, x.startTime⟩ : TransactionData).Valid := by
  obtain ⟨h1,h2,h3,h4⟩ := h.txn hx ht
  have h5 := h.clock_le
  have h6 := h.id_le
  exact ⟨by simp only; omega,by simp only; omega,h1,by simp only; omega⟩

theorem Clock.stamp_lt (hs : x.phase.Stamp c) : c < transactionIdStart := by
  by_cases ht : t = 0
  · rw [ht,h.loader] at hx
    cases hx
    have hc : c = 0 := hs.symm
    rw [hc]
    decide
  · have := (h.stamp hx ht hs).2
    have := h.clock_le
    omega

variable {x' : Txn} (htxns : s'.txns = setTxn s.txns t x') (hid : s'.nextId = s.nextId)
  (hstart : x'.startTime = x.startTime)
include htxns hid hstart

theorem Clock.update (ht : t ≠ 0) (hclock : s.clock ≤ s'.clock)
    (hle : s'.clock ≤ transactionIdStart)
    (hstamp : ∀ c, x'.phase.Stamp c → x.startTime < c ∧ c < s'.clock)
    (hlock : x'.phase.Stamping → s'.lock = some t)
    (hholder : ∀ u, s'.lock = some u → (u = t ∧ x'.phase.Stamping) ∨ (u ≠ t ∧ s.lock = some u))
    (hother : ∀ u y, u ≠ t → s.txns u = some y → y.phase.Stamping → s'.lock = s.lock)
    (hnew : ∀ c, x'.phase.Committing c → ∀ u y, s.txns u = some y →
      (y.phase.Running → y.startTime < c) ∧ ∀ c', y.phase = .committed c' → c' < c)
    (hrun : x'.phase.Running → x.phase.Running)
    (hdone : ∀ c, x'.phase = .committed c → x.phase.Stamping) : Clock s' := by
  have hget : ∀ {u y}, s'.txns u = some y → (u = t ∧ y = x') ∨ (u ≠ t ∧ s.txns u = some y) := by
    intro u y hy
    rw [htxns] at hy
    exact setTxn_cases hy
  refine ⟨h.clock_ge.trans hclock,hle,hid ▸ h.id_ge,hid ▸ h.id_le,?loader,?txn,?stamp,?locked,
    ?holder,?newest⟩
  case loader =>
    rw [htxns,setTxn_of_ne ht.symm]
    exact h.loader
  case txn =>
    intro u y hy hu
    rcases hget hy with ⟨he,hy⟩ | ⟨-,hy⟩
    · obtain ⟨h1,h2,h3,h4⟩ := h.txn hx ht
      rw [he,hy,hid,hstart]
      omega
    · obtain ⟨h1,h2,h3,h4⟩ := h.txn hy hu
      omega
  case stamp =>
    intro u y c hy hu hs
    rcases hget hy with ⟨-,hy⟩ | ⟨-,hy⟩
    · rw [hy] at hs ⊢
      rw [hstart]
      exact hstamp c hs
    · have := h.stamp hy hu hs
      omega
  case locked =>
    intro u y hy hs
    rcases hget hy with ⟨he,hy⟩ | ⟨hu,hy⟩
    · rw [he]
      exact hlock (hy ▸ hs)
    · rw [hother u y hu hy hs]
      exact h.locked hy hs
  case holder =>
    intro u hu
    rw [htxns]
    rcases hholder u hu with ⟨he,hs⟩ | ⟨hne,hl⟩
    · exact ⟨x',by rw [he,setTxn_self],hs⟩
    · obtain ⟨y,hy,hs⟩ := h.holder hl
      exact ⟨y,by rw [setTxn_of_ne hne,hy],hs⟩
  case newest =>
    intro u y c w z hy hc hz
    rcases hget hy with ⟨-,hy⟩ | ⟨hu,hy⟩
    · rw [hy] at hc
      rcases hget hz with ⟨-,hz⟩ | ⟨-,hz⟩
      · have hs := hc.stamping
        refine ⟨fun hr => ?_,fun c' hr => ?_⟩
        · rw [hz] at hr
          exact absurd hr hs.not_running
        · rw [hz] at hr
          rw [hr] at hs
          exact hs.elim
      · exact hnew c hc w z hz
    · rcases hget hz with ⟨-,hz⟩ | ⟨-,hz⟩
      · have hold := h.newest hy hc hx
        refine ⟨fun hr => ?_,fun c' hr => ?_⟩
        · rw [hz] at hr ⊢
          rw [hstart]
          exact hold.1 (hrun hr)
        -- two transactions cannot both hold the lock
        rw [hz] at hr
        have h1 := h.locked hx (hdone c' hr)
        have h2 := h.locked hy hc.stamping
        rw [h1] at h2
        exact absurd (some.inj h2).symm hu
      · exact h.newest hy hc hz

theorem Clock.update_running (hp : x.phase.Running) (hp' : x'.phase.Running)
    (hclock : s'.clock = s.clock) (hlock : s'.lock = s.lock) : Clock s' := by
  refine h.update hx htxns hid hstart (h.ne_zero hx hp.unfinished) hclock.ge (hclock ▸ h.clock_le)
    ?_ ?_ ?_ (fun _ _ _ _ _ => hlock) ?_ (fun _ => hp) ?_
  · intro c hs
    exact absurd hs (hp'.not_stamp c)
  · intro hs
    exact absurd hp' hs.not_running
  · intro u hu
    rw [hlock] at hu
    refine .inr ⟨fun he => ?_,hu⟩
    obtain ⟨y,hy,hs⟩ := h.holder hu
    rw [he,hx] at hy
    cases hy
    exact hs.not_running hp
  · intro c hc
    exact absurd hp' hc.stamping.not_running
  · intro c hc
    rw [hc] at hp'
    exact hp'.elim

/-- Moving a transaction that is in its commit or rollback. -/
theorem Clock.update_stamping (hp : x.phase.Stamping) (hnr : ¬ x'.phase.Running)
    (hstamp : ∀ c, x'.phase.Stamp c → x.phase.Committing c) (hclock : s'.clock = s.clock)
    (hlock : x'.phase.Stamping → s'.lock = s.lock)
    (hfree : s'.lock ≠ none → x'.phase.Stamping ∧ s'.lock = s.lock) : Clock s' := by
  have ht : t ≠ 0 := by
    intro he
    rw [he,h.loader] at hx
    cases hx
    exact hp
  refine h.update hx htxns hid hstart ht hclock.ge
    (hclock ▸ h.clock_le) ?stamp ?lock ?holder ?other ?newest ?running ?done
  case stamp =>
    intro c hs
    rw [hclock]
    exact h.stamp hx ht (hstamp c hs).stamp
  case lock =>
    intro hs
    rw [hlock hs]
    exact h.locked hx hp
  case holder =>
    intro u hu
    obtain ⟨hs,hl⟩ := hfree (by rw [hu]; exact some_ne_none u)
    rw [hl,h.locked hx hp] at hu
    exact .inl ⟨(some.inj hu).symm,hs⟩
  case other =>
    intro u y hu hy hs
    have h1 := h.locked hx hp
    rw [h.locked hy hs] at h1
    exact absurd (some.inj h1) hu
  case newest =>
    intro c hc u y hy
    exact h.newest hx (hstamp c hc.stamp) hy
  case running =>
    intro hr
    exact absurd hr hnr
  case done =>
    exact fun _ _ => hp

end

/-- While nobody holds the lock nobody is in its commit or rollback. -/
theorem Clock.not_stamping (h : Clock s) (hlock : s.lock = none) (hx : s.txns t = some x) :
    ¬ x.phase.Stamping := by
  intro hs
  rw [h.locked hx hs] at hlock
  cases hlock

theorem Clock.begin (h : Clock s) (hlock : s.lock = none) (hclock : s.clock < transactionIdStart)
    (hid : s.nextId < notDeletedId) :
    Clock { s with
      txns := setTxn s.txns s.nextId { startTime := s.clock }
      clock := s.clock + 1
      nextId := s.nextId + 1 } := by
  have hge := h.clock_ge
  have hid_ge := h.id_ge
  refine ⟨by dsimp only; omega,hclock,by dsimp only; omega,hid,?loader,?txn,?stamp,?locked,?holder,
    ?newest⟩
  case loader =>
    dsimp only
    rw [setTxn_of_ne (u := 0) (by omega)]
    exact h.loader
  case txn =>
    intro u y hy hu
    rcases setTxn_cases hy with ⟨he,hy⟩ | ⟨-,hy⟩
    · rw [he,hy]
      dsimp only
      omega
    · obtain ⟨h1,h2,h3,h4⟩ := h.txn hy hu
      dsimp only
      omega
  case stamp =>
    intro u y c hy hu hs
    rcases setTxn_cases hy with ⟨-,hy⟩ | ⟨-,hy⟩
    · rw [hy] at hs
      exact hs.elim
    · have := h.stamp hy hu hs
      dsimp only
      omega
  case locked =>
    intro u y hy hs
    rcases setTxn_cases hy with ⟨-,hy⟩ | ⟨-,hy⟩
    · rw [hy] at hs
      exact hs.elim
    · exact absurd hs (h.not_stamping hlock hy)
  case holder =>
    intro u hu
    dsimp only at hu
    rw [hlock] at hu
    cases hu
  case newest =>
    intro u y c w z hy hc hz
    rcases setTxn_cases hy with ⟨-,hy⟩ | ⟨-,hy⟩
    · rw [hy] at hc
      exact hc.elim
    · exact absurd hc.stamping (h.not_stamping hlock hy)

theorem afterDelete_startTime (x : Txn) (v : Nat) (res : Except StorageError (List Nat)) :
    (x.afterDelete v res).startTime = x.startTime := by
  cases res with
  | error e => rfl
  | ok rows => cases rows <;> rfl

theorem afterDelete_running (h : x.phase = .active) (v : Nat)
    (res : Except StorageError (List Nat)) :
    (x.afterDelete v res).phase.Running := by
  cases res with
  | error e => trivial
  | ok rows => cases rows <;> simp only [Txn.afterDelete,h] <;> trivial

theorem clock_step (h : Clock s) (hs : Step s s') : Clock s' := by
  cases hs with
  | begin hlock hclock hid => exact h.begin hlock hclock hid
  | append | commitAppend | revertAppend =>
    exact { h with }
  | delete hx hphase hne hslots =>
    exact h.update_running hx rfl rfl (afterDelete_startTime _ _ _) (by rw [hphase]; trivial)
      (afterDelete_running hphase _ _) rfl rfl
  | @startCommit t x hx hphase hlock hclock =>
    have hrun : x.phase.Running := by rw [hphase]; trivial
    refine h.update hx rfl rfl rfl (h.ne_zero hx hrun.unfinished) (Nat.le_succ _) hclock ?_
      (fun _ => rfl) (fun u hu => .inl ⟨(some.inj hu).symm,trivial⟩) ?_ ?_
      nofun nofun
    · intro c hc
      have hc : s.clock = c := hc
      have := (h.txn hx (h.ne_zero hx hrun.unfinished)).2.2.2
      dsimp only
      omega
    · intro u y _ hy hst
      exact absurd hst (h.not_stamping hlock hy)
    · intro c hc u y hy
      have hc : s.clock = c := hc
      have hlt : u ≠ 0 → y.startTime < s.clock := fun hu => (h.txn hy hu).2.2.2
      have hge := h.clock_ge
      by_cases hu : u = 0
      · rw [hu,h.loader] at hy
        cases hy
        refine ⟨fun hr => hr.elim,fun c' hc' => ?_⟩
        cases hc'
        omega
      · refine ⟨fun _ => hc ▸ hlt hu,fun c' hc' => ?_⟩
        have := (h.stamp hy hu (c := c') (by rw [hc']; rfl)).2
        omega
  | @stamp t x goal e todo hx hphase =>
    refine h.update_stamping hx rfl rfl rfl (by rw [hphase]; trivial) id ?_ rfl (fun _ => rfl)
      (fun _ => ⟨trivial,rfl⟩)
    intro c hc
    rw [hphase]
    cases goal <;> exact hc
  | @fail t c x todo visited hx hphase hundo hall =>
    refine h.update_stamping hx rfl rfl rfl (by rw [hphase]; trivial) id ?_ rfl (fun _ => rfl)
      (fun _ => ⟨trivial,rfl⟩)
    intro c' hc
    rw [hphase]
    exact hc
  | @startRollback t x hx hphase hlock =>
    refine h.update hx rfl rfl rfl (h.ne_zero hx hphase.unfinished) le_rfl h.clock_le
      (fun c hc => hc.elim) (fun _ => rfl) (fun u hu => .inl ⟨(some.inj hu).symm,trivial⟩)
      ?_ (fun c hc => hc.elim) nofun
      nofun
    intro u y _ hy hst
    exact absurd hst (h.not_stamping hlock hy)
  | @finishCommit t c x hx hphase hp =>
    refine h.update_stamping hx rfl rfl rfl (by rw [hphase]; trivial) id ?_ rfl
      nofun (fun hne => absurd rfl hne)
    intro c' hc
    rw [hphase]
    exact hc
  | @finishRevert t c x hx hphase =>
    exact h.update_stamping hx rfl rfl rfl (by rw [hphase]; trivial) id
      (fun c' hc => hc.elim) rfl (fun _ => rfl) (fun _ => ⟨trivial,rfl⟩)
  | @finishRollback t x hx hphase hp =>
    exact h.update_stamping hx rfl rfl rfl (by rw [hphase]; trivial) id
      (fun c' hc => hc.elim) rfl nofun (fun hne => absurd rfl hne)

structure Inserts (s : History) : Prop where
  owner : ∀ {p}, s.pending = some p → p.firstRow < s.count ∧ ∃ x, s.txns p.owner = some x ∧
    x.phase.Unfinished ∧ ∀ c, p.stamp = some c → x.phase.Stamping ∧
      ∀ c' todo, x.phase = .stamping (.commit c') todo → c' = c
  stamp : ∀ {p c}, s.pending = some p → p.stamp = some c → c < s.clock ∧
    ∀ u y, s.txns u = some y →
      (y.phase.Running → y.startTime < c) ∧ ∀ c', y.phase = .committed c' → c' < c
  settled : ∀ r < s.limit, s.Committed (s.inserter r) (s.manager.insertedAt r)
  appended : ∀ {p}, s.pending = some p → ∀ r, p.firstRow ≤ r → r < s.count →
    s.inserter r = p.owner ∧ s.manager.insertedAt r = p.stamp.getD p.owner

theorem Inserts.limit_le (h : Inserts s) : s.limit ≤ s.count := by
  unfold limit
  cases hp : s.pending with
  | none => exact le_rfl
  | some p => exact (h.owner hp).1.le

theorem limit_eq (hp : s.pending = some p) : s.limit = p.firstRow := by
  unfold limit
  rw [hp]

theorem limit_none (hp : s.pending = none) : s.limit = s.count := by
  unfold limit
  rw [hp]

/-- The rows of a pending append are told apart from the settled ones by their id. -/
theorem Inserts.lastAppend (h : Inserts s) (hc : Clock s) (hp : s.pending = some p) :
    LastAppend s.manager s.count p.firstRow (p.stamp.getD p.owner) := by
  obtain ⟨hlt,x,hx,hun,-⟩ := h.owner hp
  refine ⟨hlt,fun r h1 h2 => (h.appended hp r h1 h2).2,?_⟩
  intro r hr he
  obtain ⟨y,hy,hcom⟩ := h.settled r (by rw [limit_eq hp]; exact hr)
  cases hst : p.stamp with
  | none =>
    rw [hst,getD_none] at he
    have h1 := hc.stamp_lt hy (c := s.manager.insertedAt r) (by rw [hcom]; rfl)
    have h2 := (hc.txn hx (hc.ne_zero hx hun)).1
    omega
  | some c =>
    rw [hst,getD_some] at he
    have := ((h.stamp hp hst).2 _ y hy).2 _ hcom
    omega

theorem Inserts.id_ne_zero (h : Inserts s) (hc : Clock s) (hp : s.pending = some p)
    (hst : p.stamp = none) : p.stamp.getD p.owner ≠ 0 := by
  obtain ⟨-,x,hx,hun,-⟩ := h.owner hp
  rw [hst,getD_none]
  exact hc.ne_zero hx hun

/-- Changing one transaction that stays as it is for the pending append. -/
theorem Inserts.update (h : Inserts s) (hx : s.txns t = some x)
    (htxns : s'.txns = setTxn s.txns t x') (hstart : x'.startTime = x.startTime)
    (hins : ∀ r, s'.manager.insertedAt r = s.manager.insertedAt r) (hcount : s'.count = s.count)
    (hpend : s'.pending = s.pending) (hwho : s'.inserter = s.inserter) (hclock : s.clock ≤ s'.clock)
    (hcom : ∀ c, x.phase = .committed c ↔ x'.phase = .committed c)
    (hrun : x'.phase.Running → x.phase.Running)
    (howner : ∀ p, s.pending = some p → p.owner = t → x'.phase.Unfinished ∧ (x.phase.Stamping →
      x'.phase.Stamping) ∧ ∀ c todo, x.phase.Stamping → x'.phase = .stamping (.commit c) todo →
      ∃ todo', x.phase = .stamping (.commit c) todo') :
    Inserts s' := by
  have hlimit : s'.limit = s.limit := by
    unfold limit
    rw [hpend,hcount]
  have hcommitted : ∀ {u c}, s.Committed u c → s'.Committed u c := by
    intro u c hu
    obtain ⟨y,hy,hph⟩ := hu
    unfold Committed
    rw [htxns]
    by_cases he : u = t
    · subst he
      rw [hx] at hy
      cases hy
      exact ⟨x',setTxn_self _ _ _,(hcom c).mp hph⟩
    · exact ⟨y,by rw [setTxn_of_ne he,hy],hph⟩
  constructor
  · intro p hp
    rw [hpend] at hp
    obtain ⟨hlt,y,hy,hun,hst⟩ := h.owner hp
    refine ⟨hcount ▸ hlt,?_⟩
    rw [htxns]
    by_cases he : p.owner = t
    · rw [he,hx] at hy
      cases hy
      obtain ⟨h1,h2,h3⟩ := howner p hp he
      refine ⟨x',by rw [he,setTxn_self],h1,?_⟩
      intro c hc
      obtain ⟨hs1,hs2⟩ := hst c hc
      refine ⟨h2 hs1,?_⟩
      intro c' todo hph
      obtain ⟨todo',hold⟩ := h3 c' todo hs1 hph
      exact hs2 c' todo' hold
    · exact ⟨y,by rw [setTxn_of_ne he,hy],hun,hst⟩
  · intro p c hp hst
    rw [hpend] at hp
    obtain ⟨h1,h2⟩ := h.stamp hp hst
    refine ⟨by omega,?_⟩
    intro u y hy
    rw [htxns] at hy
    by_cases he : u = t
    · rw [he,setTxn_self] at hy
      cases hy
      obtain ⟨h3,h4⟩ := h2 t x hx
      exact ⟨fun hr => hstart ▸ h3 (hrun hr),fun c' hc => h4 c' ((hcom c').mpr hc)⟩
    · rw [setTxn_of_ne he] at hy
      exact h2 u y hy
  · intro r hr
    rw [hlimit] at hr
    rw [hwho,hins]
    exact hcommitted (h.settled r hr)
  · intro p hp r h1 h2
    rw [hpend] at hp
    rw [hwho,hins]
    exact h.appended hp r h1 (hcount ▸ h2)

/-- The rows of some undo entries. -/
def rowsIn (entries : List DeleteInfo) : List Nat :=
  entries.flatMap DeleteInfo.rowNumbers

theorem mem_rowsIn : r ∈ rowsIn entries ↔ ∃ e ∈ entries, r ∈ e.rowNumbers :=
  List.mem_flatMap

structure Deletes (s : History) : Prop where
  unmarked : ∀ r < s.count, s.deleter r = none → s.manager.deletedAt r = notDeletedId
  marked : ∀ {r t}, s.deleter r = some t → r < s.limit ∧ ∃ x, s.txns t = some x ∧
    ((s.manager.deletedAt r = t ∧ ∀ c, x.phase ≠ .committed c) ∨
      x.phase.Stamp (s.manager.deletedAt r))
  owned : ∀ {t x}, s.txns t = some x → ∀ e ∈ x.entries, e.rows ≠ [] ∧
    ∀ i ∈ e.rows, i < standardVectorSize ∧ s.deleter (e.vectorIdx * standardVectorSize + i) = some t
  once : ∀ {t x}, s.txns t = some x → (rowsIn x.entries).Nodup
  todo : ∀ {t x goal todo}, s.txns t = some x → x.phase = .stamping goal todo → todo ⊆ x.entries
  complete : ∀ {t x}, s.txns t = some x → x.phase.MayAppend → ∀ r, s.deleter r = some t →
    r ∈ rowsIn x.undo
  committing : ∀ {t x c todo}, s.txns t = some x → x.phase = .stamping (.commit c) todo →
    ∀ r, s.deleter r = some t → s.manager.deletedAt r = c ∨ r ∈ rowsIn todo
  reverting : ∀ {t x c todo}, s.txns t = some x → x.phase = .stamping (.revert c) todo →
    ∀ r, s.deleter r = some t → s.manager.deletedAt r = t ∨ r ∈ rowsIn todo

section

variable (h : Deletes s)
include h

/-- The rows of an undo entry carry the mark of its transaction. -/
theorem Deletes.deleter_of_mem (hx : s.txns t = some x) (he : e ∈ x.entries)
    (hr : r ∈ e.rowNumbers) :
    s.deleter r = some t := by
  obtain ⟨i,hi,hrow⟩ := List.mem_map.mp hr
  rw [← hrow]
  exact ((h.owned hx e he).2 i hi).2

/-- A mark is never the id of an unmarked row, nor, unless it was loaded, zero. -/
theorem Deletes.mark_ne (hc : Clock s) (hd : s.deleter r = some t) :
    s.manager.deletedAt r ≠ notDeletedId ∧ (t ≠ 0 → s.manager.deletedAt r ≠ 0) := by
  have hlt := transactionIdStart_lt
  have hid := hc.id_le
  obtain ⟨-,x,hx,hcase⟩ := h.marked hd
  rcases hcase with ⟨he,hne⟩ | hst
  · have ht : t ≠ 0 := by
      intro h0
      rw [h0,hc.loader] at hx
      cases hx
      exact hne 0 rfl
    have := hc.txn hx ht
    omega
  · have h1 := hc.stamp_lt hx hst
    refine ⟨by omega,fun ht => ?_⟩
    have := hc.stamp hx ht hst
    omega

/-- The marks of a running transaction are its id. -/
theorem Deletes.deletedAt_eq (hx : s.txns t = some x) (hst : ∀ c, ¬ x.phase.Stamp c)
    (hd : s.deleter r = some t) : s.manager.deletedAt r = t := by
  obtain ⟨-,y,hy,hcase⟩ := h.marked hd
  rw [hx] at hy
  cases hy
  exact (hcase.resolve_right (hst _)).1

/-- A row carries the id of a running transaction exactly when it marked the row. -/
theorem Deletes.own_iff (hc : Clock s) (hx : s.txns t = some x) (hrun : x.phase.Running)
    (hr : r < s.count) : s.manager.deletedAt r = t ↔ s.deleter r = some t := by
  constructor
  · intro he
    have hid := hc.txn hx (hc.ne_zero hx hrun.unfinished)
    have hle := hc.id_le
    cases hd : s.deleter r with
    | none =>
      rw [h.unmarked r hr hd] at he
      omega
    | some u =>
      obtain ⟨-,y,hy,hcase⟩ := h.marked hd
      rcases hcase with ⟨hu,-⟩ | hst
      · rw [← hu,he]
      · have := hc.stamp_lt hy hst
        omega
  · exact h.deletedAt_eq hx hrun.not_stamp

theorem Deletes.free_iff (hc : Clock s) (hr : r < s.count) :
    s.manager.deletedAt r = notDeletedId ↔ s.deleter r = none := by
  constructor
  · intro he
    cases hd : s.deleter r with
    | none => rfl
    | some u => exact absurd he (h.mark_ne hc hd).1
  · exact h.unmarked r hr

end

/-- The part of the invariant about one transaction: its undo entries hold rows that it marked, and
cover its marks in the phases where they have to. -/
structure Covers (s : History) (t : Nat) (x : Txn) : Prop where
  owned : ∀ e ∈ x.entries, e.rows ≠ [] ∧
    ∀ i ∈ e.rows, i < standardVectorSize ∧ s.deleter (e.vectorIdx * standardVectorSize + i) = some t
  once : (rowsIn x.entries).Nodup
  todo : ∀ {goal todo}, x.phase = .stamping goal todo → todo ⊆ x.entries
  complete : x.phase.MayAppend → ∀ r, s.deleter r = some t → r ∈ rowsIn x.undo
  committing : ∀ {c todo}, x.phase = .stamping (.commit c) todo →
    ∀ r, s.deleter r = some t → s.manager.deletedAt r = c ∨ r ∈ rowsIn todo
  reverting : ∀ {c todo}, x.phase = .stamping (.revert c) todo →
    ∀ r, s.deleter r = some t → s.manager.deletedAt r = t ∨ r ∈ rowsIn todo

theorem Deletes.covers (h : Deletes s) (hx : s.txns t = some x) : Covers s t x :=
  ⟨h.owned hx,h.once hx,h.todo hx,h.complete hx,h.committing hx,h.reverting hx⟩

/-- Only the marks of the transaction itself matter to it. -/
theorem Covers.keep (h : Covers s t x) (hmarks : ∀ r, s'.deleter r = some t ↔ s.deleter r = some t)
    (hm : ∀ r, s.deleter r = some t → s'.manager.deletedAt r = s.manager.deletedAt r) :
    Covers s' t x := by
  refine ⟨?_,h.once,h.todo,?_,?_,?_⟩
  · simpa only [hmarks] using h.owned
  · simpa only [hmarks] using h.complete
  · intro c todo hp r hd
    rw [hmarks] at hd
    rw [hm r hd]
    exact h.committing hp r hd
  · intro c todo hp r hd
    rw [hmarks] at hd
    rw [hm r hd]
    exact h.reverting hp r hd

theorem Deletes.of_covers
    (hunmarked : ∀ r < s.count, s.deleter r = none → s.manager.deletedAt r = notDeletedId)
    (hmarked : ∀ {r t}, s.deleter r = some t → r < s.limit ∧ ∃ x, s.txns t = some x ∧
      ((s.manager.deletedAt r = t ∧ ∀ c, x.phase ≠ .committed c) ∨
        x.phase.Stamp (s.manager.deletedAt r)))
    (hcov : ∀ {t x}, s.txns t = some x → Covers s t x) : Deletes s :=
  ⟨hunmarked,hmarked,fun hx => (hcov hx).owned,fun hx => (hcov hx).once,fun hx => (hcov hx).todo,
    fun hx => (hcov hx).complete,fun hx => (hcov hx).committing,fun hx => (hcov hx).reverting⟩

/-- A change to one transaction and its marks. -/
theorem Deletes.change (h : Deletes s) (htxns : s'.txns = setTxn s.txns t x')
    (hlimit : s.limit ≤ s'.limit)
    (hunmarked : ∀ r < s'.count, s'.deleter r = none → s'.manager.deletedAt r = notDeletedId)
    (hother : ∀ u, u ≠ t → ∀ r, (s'.deleter r = some u ↔ s.deleter r = some u) ∧
      (s.deleter r = some u → s'.manager.deletedAt r = s.manager.deletedAt r))
    (hmarked : ∀ r, s'.deleter r = some t → r < s'.limit ∧ ((s'.manager.deletedAt r = t ∧
      ∀ c, x'.phase ≠ .committed c) ∨ x'.phase.Stamp (s'.manager.deletedAt r)))
    (hcovers : Covers s' t x') : Deletes s' := by
  refine .of_covers hunmarked ?_ ?_
  · intro r u hd
    by_cases hu : u = t
    · subst hu
      obtain ⟨hlt,hcase⟩ := hmarked r hd
      exact ⟨hlt,x',by rw [htxns,setTxn_self],hcase⟩
    · have hd' := (hother u hu r).1.mp hd
      obtain ⟨hlt,y,hy,hcase⟩ := h.marked hd'
      rw [(hother u hu r).2 hd',htxns]
      exact ⟨hlt.trans_le hlimit,y,by rw [setTxn_of_ne hu,hy],hcase⟩
  · intro u y hy
    rw [htxns] at hy
    rcases setTxn_cases hy with ⟨rfl,rfl⟩ | ⟨hu,hy⟩
    · exact hcovers
    · exact (h.covers hy).keep (fun r => (hother u hu r).1) (fun r => (hother u hu r).2)

/-- Changing the phase of one transaction without touching any mark. -/
theorem Deletes.update (h : Deletes s) (hx : s.txns t = some x)
    (htxns : s'.txns = setTxn s.txns t x') (hcount : s'.count = s.count)
    (hlimit : s.limit ≤ s'.limit) (hm : ∀ r, s'.manager.deletedAt r = s.manager.deletedAt r)
    (hdel : s'.deleter = s.deleter)
    (hmark : ∀ r, s.deleter r = some t → (s.manager.deletedAt r = t ∧
      ∀ c, x'.phase ≠ .committed c) ∨ x'.phase.Stamp (s.manager.deletedAt r))
    (hent : ∀ e ∈ x'.entries, e ∈ x.entries) (honce : (rowsIn x'.entries).Nodup)
    (htodo : ∀ goal todo, x'.phase = .stamping goal todo → todo ⊆ x'.entries)
    (hcomp : x'.phase.MayAppend → x.phase.MayAppend ∧ x'.undo = x.undo)
    (hcommit : ∀ c todo, x'.phase = .stamping (.commit c) todo → ∀ r, s.deleter r = some t →
      s.manager.deletedAt r = c ∨ r ∈ rowsIn todo)
    (hrevert : ∀ c todo, x'.phase = .stamping (.revert c) todo → ∀ r, s.deleter r = some t →
      s.manager.deletedAt r = t ∨ r ∈ rowsIn todo) :
    Deletes s' := by
  refine h.change htxns hlimit ?unmarked ?other ?marked
    ⟨?owned,honce,htodo _ _,?complete,?committing,?reverting⟩
  case unmarked =>
    simpa only [hdel,hm,hcount] using h.unmarked
  case other =>
    simp [hdel,hm]
  case marked =>
    intro r hd
    rw [hdel] at hd
    rw [hm]
    exact ⟨(h.marked hd).1.trans_le hlimit,hmark r hd⟩
  case owned =>
    intro e he
    rw [hdel]
    exact h.owned hx e (hent e he)
  case complete =>
    intro hp r hd
    rw [hdel] at hd
    obtain ⟨hmay,hundo⟩ := hcomp hp
    exact hundo ▸ h.complete hx hmay r hd
  case committing =>
    intro c todo
    simpa only [hdel,hm] using hcommit c todo
  case reverting =>
    intro c todo
    simpa only [hdel,hm] using hrevert c todo

/-- Changing nothing but where the append stands. -/
theorem Deletes.frame (h : Deletes s) (htxns : s'.txns = s.txns)
    (hun : ∀ r < s'.count, s.deleter r = none → s'.manager.deletedAt r = notDeletedId)
    (hm : ∀ r, s.deleter r ≠ none → s'.manager.deletedAt r = s.manager.deletedAt r)
    (hdel : s'.deleter = s.deleter) (hlimit : s.limit ≤ s'.limit) : Deletes s' := by
  have hm' : ∀ {r u}, s.deleter r = some u → s'.manager.deletedAt r = s.manager.deletedAt r :=
    fun hd => hm _ (by rw [hd]; exact some_ne_none _)
  refine .of_covers (by rwa [hdel]) ?_ ?_
  · intro r u hd
    rw [hdel] at hd
    rw [hm' hd,htxns]
    exact ⟨(h.marked hd).1.trans_le hlimit,(h.marked hd).2⟩
  · intro u y hy
    exact (h.covers (htxns ▸ hy)).keep (by simp [hdel]) (fun r => hm')

end History

end PredTrans.Storage
