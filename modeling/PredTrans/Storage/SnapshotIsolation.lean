import PredTrans.Storage.HistorySteps

/-! The ids a row carries tell a running transaction exactly whether the row was inserted, and not
deleted, by transactions that it sees. -/

namespace PredTrans.Storage

namespace History

open RowVersionManager

variable {s s' : History} {t u c r : Nat} {x y : Txn}

/-- What a row group holds before any transaction: rows that everyone may see, or
that were loaded as deleted. -/
structure Loaded (m : RowVersionManager) (n : Nat) : Prop where
  coherent : Coherent m n
  inserted : ∀ r < n, m.insertedAt r = 0
  deleted : ∀ r < n, m.deletedAt r = 0 ∨ m.deletedAt r = notDeletedId

theorem loaded_new {start n : Nat} (h : n ≤ rowGroupSize) : Loaded { start := start } n :=
  ⟨coherent_new h,fun _ _ => rfl,fun _ _ => .inr rfl⟩

theorem inv_initial (h : Loaded m n) : Inv (initial m n) := by
  have hget : ∀ {u y}, (initial m n).txns u = some y →
      u = 0 ∧ y = { startTime := 0, phase := .committed 0 } := by
    intro u y hy
    unfold initial at hy
    dsimp only at hy
    split at hy
    · exact ⟨‹_›,(Option.some.inj hy).symm⟩
    · cases hy
  have hclock : 2 ≤ transactionIdStart := by decide
  refine ⟨h.coherent,⟨le_rfl,hclock,le_rfl,transactionIdStart_lt.le,rfl,?txn,?stamp,?locked,
    fun hl => (by cases hl),?newest⟩,⟨?owner,?pendingStamp,?settled,?appended⟩,?deletes⟩
  case txn =>
    exact fun hx ht => absurd (hget hx).1 ht
  case stamp =>
    exact fun hx ht => absurd (hget hx).1 ht
  case locked =>
    intro u y hy hs
    rw [(hget hy).2] at hs
    exact hs.elim
  case newest =>
    intro u y c w z hy hc
    rw [(hget hy).2] at hc
    exact hc.elim
  case owner =>
    exact nofun
  case pendingStamp =>
    exact nofun
  case settled =>
    intro r hr
    exact ⟨{ startTime := 0, phase := .committed 0 },rfl,
      by rw [show (initial m n).manager = m from rfl,
      h.inserted r hr]⟩
  case appended =>
    exact nofun
  case deletes =>
    constructor
    case unmarked =>
      intro r hr hd
      unfold initial at hd
      dsimp only at hd
      split at hd
      · cases hd
      · exact (h.deleted r hr).resolve_left ‹_›
    case marked =>
      intro r u hd
      unfold initial at hd
      dsimp only at hd
      split at hd
      · rename_i h0
        cases hd
        refine ⟨?_,{ startTime := 0, phase := .committed 0 },rfl,.inr ?_⟩
        · by_contra hr
          have hpast := h.coherent.deletedAt_past (r := r) (by
            have : ¬ r < n := hr
            omega)
          rw [h0] at hpast
          exact absurd hpast (by decide)
        · exact h0.symm
      · cases hd
    case owned =>
      intro u y hy e he
      rw [(hget hy).2] at he
      exact absurd he (List.not_mem_nil)
    case once =>
      intro u y hy
      rw [(hget hy).2]
      exact List.nodup_nil
    case todo =>
      intro u y goal todo hy hp
      rw [(hget hy).2] at hp
      cases hp
    case complete =>
      intro u y hy hp
      rw [(hget hy).2] at hp
      exact hp.elim
    case committing | reverting =>
      intro u y c todo hy hp
      rw [(hget hy).2] at hp
      cases hp

section

variable {T : TransactionData} (h : Inv s) (hT : s.IsActive T)
include h hT

/-- An id in the version information is used by a running transaction exactly when
it stands for a transaction it sees. -/
theorem Inv.useVersion_iff {u id : Nat} (hy : s.txns u = some y)
    (hid : (id = u ∧ ∀ c, y.phase ≠ .committed c) ∨ y.phase.Committing id ∨
      y.phase = .committed id) :
    useVersion T id = true ↔ s.Sees T u := by
  obtain ⟨x,hx,hstart,hrun⟩ := hT
  have hT0 := h.clock.ne_zero hx hrun.unfinished
  have hTid := h.clock.txn hx hT0
  have hcl := h.clock.clock_le
  rw [PredTrans.Storage.useVersion_iff]
  unfold Sees Committed
  have hcom : ∀ {c}, (∃ z, s.txns u = some z ∧ z.phase = .committed c) ↔
      y.phase = .committed c := by
    intro c
    rw [hy]
    constructor
    · intro hz
      obtain ⟨z,hz,hp⟩ := hz
      cases hz
      exact hp
    · exact fun hp => ⟨y,rfl,hp⟩
  simp only [hcom]
  rcases hid with ⟨he,hne⟩ | hid | hid
  · have hu : u ≠ 0 := by
      intro h0
      rw [h0,h.clock.loader] at hy
      cases hy
      exact hne 0 rfl
    have hge := (h.clock.txn hy hu).1
    constructor
    · intro hc
      exact .inl (by omega)
    · intro hc
      rcases hc with hc | ⟨c,hc,-⟩
      · exact .inr (by omega)
      · exact absurd hc (hne c)
  · have hlt := (h.clock.newest hy hid hx).1 hrun
    have hst := h.clock.stamp_lt hy hid.stamp
    constructor
    · omega
    intro hc
    rcases hc with hc | ⟨c,hc,-⟩
    · rw [hc,hx] at hy
      cases hy
      exact absurd hrun hid.stamping.not_running
    · have hs := hid.stamping
      rw [hc] at hs
      exact hs.elim
  · have hst := h.clock.stamp_lt hy (c := id) (by rw [hid]; rfl)
    constructor
    · intro hc
      exact .inr ⟨id,hid,by omega⟩
    intro hc
    rcases hc with hc | ⟨c,hc,hlt⟩
    · rw [hc,hx] at hy
      cases hy
      exact absurd hid (hrun.unfinished.not_committed id)
    · rw [hid] at hc
      cases hc
      exact .inl hlt

theorem Inv.valid : T.Valid := by
  obtain ⟨x,hx,hstart,hrun⟩ := hT
  have hvalid := h.clock.valid hx (h.clock.ne_zero hx hrun.unfinished)
  rw [hstart] at hvalid
  exact hvalid

variable (hr : r < s.count)
include hr

/-- The id that a row carries as its inserter stands for the transaction that
inserted it. -/
theorem Inv.inserted_sees :
    useVersion T (s.manager.insertedAt r) = true ↔ s.Sees T (s.inserter r) := by
  by_cases hlim : r < s.limit
  · obtain ⟨y,hy,hp⟩ := h.inserts.settled r hlim
    exact h.useVersion_iff hT hy (.inr (.inr hp))
  cases hq : s.pending with
  | none =>
    rw [limit_none hq] at hlim
    exact absurd hr hlim
  | some q =>
    rw [limit_eq hq] at hlim
    obtain ⟨h1,h2⟩ := h.inserts.appended hq r (by omega) hr
    obtain ⟨-,y,hy,hun,h3⟩ := h.inserts.owner hq
    rw [h1,h2]
    cases hs : q.stamp with
    | none => exact h.useVersion_iff hT hy (.inl ⟨rfl,hun.not_committed⟩)
    | some c =>
      -- the appender holds the lock, so no running transaction started after its commit id
      obtain ⟨x,hx,hstart,hrun⟩ := hT
      obtain ⟨hlt,hnew⟩ := h.inserts.stamp hq hs
      have h4 := (hnew _ x hx).1 hrun
      have h5 := (h.clock.txn hx (h.clock.ne_zero hx hrun.unfinished)).1
      have h6 := h.clock.clock_le
      rw [Option.getD_some,PredTrans.Storage.useVersion_iff]
      constructor
      · omega
      intro hc
      rcases hc with hc | ⟨d,⟨z,hz,hd⟩,-⟩
      · rw [hc,hx] at hy
        cases hy
        exact absurd hrun (h3 c hs).1.not_running
      · rw [hy] at hz
        cases hz
        exact absurd hd (hun.not_committed d)

/-- The id that a row carries as its deleter stands for the transaction that marked it. -/
theorem Inv.deleted_sees :
    useVersion T (s.manager.deletedAt r) = true ↔ ∃ u, s.deleter r = some u ∧ s.Sees T u := by
  cases hd : s.deleter r with
  | none =>
    obtain ⟨x,hx,hstart,hrun⟩ := hT
    have hvalid := h.clock.valid hx (h.clock.ne_zero hx hrun.unfinished)
    rw [hstart] at hvalid
    rw [h.deletes.unmarked r hr hd]
    constructor
    · intro hc
      rw [show T = ⟨T.transactionId,T.startTime⟩ from rfl,hvalid.undeleted] at hc
      cases hc
    · intro hc
      obtain ⟨u,hu,-⟩ := hc
      cases hu
  | some u =>
    obtain ⟨-,y,hy,hcase⟩ := h.deletes.marked hd
    have hiff := h.useVersion_iff hT hy (by
      rcases hcase with h1 | h1
      · exact .inl h1
      right
      cases hp : y.phase with
      | committed c =>
        rw [hp] at h1
        right
        rw [show c = s.manager.deletedAt r from h1]
      | stamping goal todo =>
        rw [hp] at h1
        left
        cases goal <;> exact h1
      | _ =>
        rw [hp] at h1
        exact h1.elim)
    rw [hiff]
    constructor
    · exact fun hs => ⟨u,rfl,hs⟩
    · intro hs
      obtain ⟨w,hw,hs⟩ := hs
      cases hw
      exact hs

theorem Inv.fetch_iff : s.manager.fetch T r = true ↔ s.Visible T r := by
  rw [fetch_eq (h.valid hT),Bool.and_eq_true,h.inserted_sees hT hr]
  rw [Bool.not_eq_true',← Bool.not_eq_true,h.deleted_sees hT hr]
  constructor
  · exact fun hv => ⟨hv.1,fun u hu hs => hv.2 ⟨u,hu,hs⟩⟩
  · exact fun hv => ⟨hv.1,fun hs => by obtain ⟨u,hu,hs⟩ := hs; exact hv.2 u hu hs⟩

end

/-- In every history on a row group the scan and the fetch of a running transaction
agree, and they find exactly the rows that snapshot isolation promises. -/
theorem visibility_is_snapshot_isolation {start n : Nat} (hn : n ≤ rowGroupSize) {s : History}
    (hs : Run (initial { start := start } n) s) {T : TransactionData} (hT : s.IsActive T) {r : Nat}
    (hr : r < s.count) :
    (s.manager.Scans s.count T r ↔ s.manager.fetch T r = true) ∧
      (s.manager.fetch T r = true ↔ s.Visible T r) := by
  have h := inv_run (inv_initial (loaded_new hn)) hs
  exact ⟨h.coherent.scans_iff (h.valid hT) hr,h.fetch_iff hT hr⟩

/-- One transaction has started on a row group of `n` loaded rows. -/
def withOneTransaction (n : Nat) : History :=
  { initial { start := 0 } n with
    txns := setTxn (initial { start := 0 } n).txns transactionIdStart { startTime := 2 }
    clock := 3
    nextId := transactionIdStart + 1 }

/-- A transaction that deleted row `1` of three loaded rows. -/
theorem own_delete_is_snapshot_isolated : ∃ s, Run (initial { start := 0 } 3) s ∧
    s.IsActive ⟨transactionIdStart, 2⟩ ∧ 1 < s.count ∧
    (s.manager.Scans s.count ⟨transactionIdStart, 2⟩ 1 ↔
      s.manager.fetch ⟨transactionIdStart, 2⟩ 1 = true) ∧
    (s.manager.fetch ⟨transactionIdStart, 2⟩ 1 = true ↔ s.Visible ⟨transactionIdStart, 2⟩ 1) := by
  have hstart : Step (initial { start := 0 } 3) (withOneTransaction 3) :=
    .begin rfl (by decide) (by decide)
  have hx : (withOneTransaction 3).txns transactionIdStart = some { startTime := 2 } := by
    simp [withOneTransaction]
  have hdelete : Step (withOneTransaction 3) _ :=
    .delete (v := 0) hx rfl (by decide : [1] ≠ []) (by decide)
  have hrun := (Relation.ReflTransGen.single hstart).tail hdelete
  have hactive : ∀ res, setTxn (withOneTransaction 3).txns transactionIdStart
      (Txn.afterDelete { startTime := 2 } 0 res) transactionIdStart =
        some (Txn.afterDelete { startTime := 2 } 0 res) ∧
      (Txn.afterDelete { startTime := 2 } 0 res).startTime = 2 ∧
      (Txn.afterDelete { startTime := 2 } 0 res).phase.Running :=
    fun res => ⟨setTxn_self _ _ _,afterDelete_startTime _ _ _,afterDelete_running rfl _ _⟩
  refine ⟨_,hrun,⟨_,hactive _⟩,by decide,?_⟩
  exact visibility_is_snapshot_isolation (by decide) hrun ⟨_,hactive _⟩ (by decide)

end History

end PredTrans.Storage
