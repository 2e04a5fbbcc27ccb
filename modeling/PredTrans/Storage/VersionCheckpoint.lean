import PredTrans.Storage.SnapshotIsolation

/-! `Checkpoint` writes, for each vector with deletes, which of its slots a reader newer than every
commit would skip, also past the last row. A row group survives the round trip exactly if none of
them still has the insert id of a reverted append. -/

namespace PredTrans.Storage

open Library List ChunkVectorInfo

theorem selectRows_count (n : Nat) (test : Nat → Bool) :
    (selectRows n test).count = ((List.range n).filter test).length := rfl

namespace ChunkVectorInfo

variable {info : ChunkVectorInfo} {i : Nat}

/-- The insert id that the writer looks at. -/
def writtenInsertId (info : ChunkVectorInfo) (i : Nat) : Nat :=
  if info.sameInsertedId then info.insertId else info.inserted i

/-- The writer takes the slot for visible. -/
def keeps (info : ChunkVectorInfo) (i : Nat) : Bool :=
  transactionVersionOperator.useInsertedVersion (transactionIdStart - 1) invalidIndex
      (info.writtenInsertId i) &&
    transactionVersionOperator.useDeletedVersion (transactionIdStart - 1) invalidIndex
      (info.deleted i)

theorem selection_write (h : info.anyDeleted = true) :
    info.templatedGetSelVector transactionVersionOperator (transactionIdStart - 1) invalidIndex
      standardVectorSize = selectRows standardVectorSize info.keeps := by
  unfold templatedGetSelVector keeps writtenInsertId
  cases hs : info.sameInsertedId with
  | false => simp [h]
  | true =>
    cases hu : transactionVersionOperator.useInsertedVersion (transactionIdStart - 1) invalidIndex
        info.insertId with
    | true => simp [h,hu]
    | false => simp [hu,selectRows]

theorem read_write (h : info.anyDeleted = true) (hi : i < standardVectorSize) :
    RowVersionManager.infoInsertedAt (ChunkInfo.read info.write) i = 0 ∧
      RowVersionManager.infoDeletedAt (ChunkInfo.read info.write) i =
        if info.keeps i then notDeletedId else 0 := by
  have hmem : i ∈ List.range standardVectorSize := mem_range.mpr hi
  unfold write
  rw [selection_write h]
  dsimp only
  rw [selectRows_count]
  split
  · rename_i hall
    have hfilter : (List.range standardVectorSize).filter info.keeps =
        List.range standardVectorSize := by
      apply filter_sublist.eq_of_length
      rw [length_range]
      exact hall
    have hk : info.keeps i = true := by
      rw [← hfilter] at hmem
      exact (mem_filter.mp hmem).2
    exact ⟨rfl,by rw [hk]; rfl⟩
  · split
    · rename_i hnone
      have hk : info.keeps i = false := by
        have hnil := length_eq_zero_iff.mp hnone
        have := filter_eq_nil_iff.mp hnil i hmem
        simpa using this
      exact ⟨rfl,by rw [hk]; rfl⟩
    · refine ⟨rfl,?_⟩
      simp only [ChunkInfo.read,RowVersionManager.infoDeletedAt,ChunkInfo.deletedAt,read]
      rw [ValidityMask.read_write _ hi]
      cases hk : info.keeps i <;> simp [selectRows,hk,hi]

theorem read_write_cases (info : ChunkVectorInfo) :
    ChunkInfo.read info.write = none ∨
      (∃ c, ChunkInfo.read info.write = some (.constant c) ∧ c.deleteId = 0) ∨
      ∃ w, ChunkInfo.read info.write = some (.vector w) ∧ w.inserted = (fun _ => 0) ∧
        w.insertId = 0 ∧
        w.anyDeleted = true := by
  unfold write
  dsimp only
  split
  · exact .inl rfl
  · split
    · exact .inr (.inl ⟨_,rfl,rfl⟩)
    · exact .inr (.inr ⟨_,rfl,rfl,rfl,rfl⟩)

end ChunkVectorInfo

namespace RowVersionManager

variable {m m' : RowVersionManager} {n : Nat}

/-- Written and read back. Without a pointer there is no version information, and
the first call that needs one creates it. -/
def reload (m : RowVersionManager) : Except StorageError RowVersionManager :=
  (deserialize m.checkpoint.1 m.start).map (fun o => o.getD { start := m.start })

/-- What becomes of the info of one vector. -/
def reloadedInfo : Option ChunkInfo → Option ChunkInfo
  | none => none
  | some info => if info.hasDeletes then ChunkInfo.read info.write else none

theorem reloadedInfo_vector (h : info.anyDeleted = true) :
    reloadedInfo (some (.vector info)) = ChunkInfo.read info.write := by
  simp [reloadedInfo,ChunkInfo.hasDeletes,hasDeletes,h,ChunkInfo.write]

theorem readInfos_spec (hkeys : ∀ p ∈ stored, p.1 < rowGroupVectorCount)
    (hnodup : (stored.map Prod.fst).Nodup) (m : RowVersionManager) :
    ∃ m', readInfos m stored = .ok m' ∧ (∀ p ∈ stored, m'.vectorInfo p.1 = ChunkInfo.read p.2) ∧
      ∀ v, v ∉ stored.map Prod.fst → m'.vectorInfo v = m.vectorInfo v := by
  induction stored generalizing m with
  | nil => exact ⟨m,rfl,by simp,fun _ _ => rfl⟩
  | cons p stored ih =>
    obtain ⟨v,st⟩ := p
    rw [map_cons,nodup_cons] at hnodup
    have hv : ¬ rowGroupVectorCount ≤ v := Nat.not_le_of_lt (hkeys (v, st) (by simp))
    obtain ⟨m',hok,hin,hout⟩ := ih (fun p hp => hkeys p (by simp [hp])) hnodup.2
      { m with vectorInfo := fun i => if i = v then ChunkInfo.read st else m.vectorInfo i }
    refine ⟨m',by rw [readInfos,if_neg hv]; exact hok,?_,?_⟩
    · intro p hp
      rcases mem_cons.mp hp with he | hp
      · subst he
        rw [hout v hnodup.1]
        simp
      · exact hin p hp
    · intro w hw
      simp only [map_cons,mem_cons,not_or] at hw
      rw [hout w hw.2]
      simp [hw.1]

theorem readInfos_fields (h : readInfos m stored = .ok m') :
    m'.start = m.start ∧ m'.hasChanges = m.hasChanges ∧ m'.storagePointers = m.storagePointers ∧
      ∀ v, m'.vectorInfo v = m.vectorInfo v ∨ ∃ st, m'.vectorInfo v = ChunkInfo.read st := by
  induction stored generalizing m with
  | nil =>
    cases h
    exact ⟨rfl,rfl,rfl,fun _ => .inl rfl⟩
  | cons p stored ih =>
    obtain ⟨w,st⟩ := p
    rw [readInfos] at h
    split at h
    · cases h
    obtain ⟨h1,h2,h3,h4⟩ := ih h
    refine ⟨h1,h2,h3,?_⟩
    intro v
    rcases h4 v with he | he
    · rw [he]
      by_cases hv : v = w
      · exact .inr ⟨st,by simp [hv]⟩
      · exact .inl (by simp [hv])
    · exact .inr he

theorem mem_toSerialize : p ∈ m.toSerialize ↔ p.1 < rowGroupVectorCount ∧
    ∃ info, m.vectorInfo p.1 = some info ∧ info.hasDeletes = true ∧ p.2 = info.write := by
  obtain ⟨v,st⟩ := p
  simp only [toSerialize,mem_filterMap,mem_range]
  constructor
  · intro h
    obtain ⟨w,hw,he⟩ := h
    cases hi : m.vectorInfo w with
    | none => simp [hi] at he
    | some info =>
      simp only [hi,Option.ite_none_right_eq_some,Option.some.injEq,Prod.mk.injEq] at he
      obtain ⟨hd,hwv,hst⟩ := he
      subst hwv
      exact ⟨hw,info,hi,hd,hst.symm⟩
  · intro h
    obtain ⟨hv,info,hi,hd,hst⟩ := h
    refine ⟨v,hv,?_⟩
    simp [hi,hd,hst]

theorem nodup_toSerialize (m : RowVersionManager) : (m.toSerialize.map Prod.fst).Nodup := by
  have hsub : ∀ l : List Nat, ((l.filterMap (fun v =>
      match m.vectorInfo v with
      | none => none
      | some info => if info.hasDeletes then some (v, info.write) else none)).map
          Prod.fst).Sublist l := by
    intro l
    induction l with
    | nil => simp
    | cons v l ih =>
      cases hi : m.vectorInfo v with
      | none => simpa [hi] using ih.cons v
      | some info =>
        by_cases hd : info.hasDeletes = true
        · simpa [hi,hd] using ih
        · simpa [hi,hd] using ih.cons v
  exact (hsub _).nodup nodup_range

/-- When something is written at all, each vector is read back on its own. -/
theorem reload_eq (h : m.hasChanges = true ∨ m.storagePointers = none)
    (hfits : ∀ v, rowGroupVectorCount ≤ v → m.vectorInfo v = none) :
    ∃ m', m.reload = .ok m' ∧ ∀ v, m'.vectorInfo v = reloadedInfo (m.vectorInfo v) := by
  have hcond : ¬ ((!m.hasChanges && m.storagePointers.isSome) = true) := by
    rcases h with h | h <;> simp [h]
  have hread : ∃ m', m.reload = .ok m' ∧
      (∀ p ∈ m.toSerialize, m'.vectorInfo p.1 = ChunkInfo.read p.2) ∧
      ∀ v, v ∉ m.toSerialize.map Prod.fst → m'.vectorInfo v = none := by
    unfold reload checkpoint
    rw [if_neg hcond]
    by_cases hnil : m.toSerialize = []
    · refine ⟨{ start := m.start },by simp [hnil,deserialize,Except.map],by simp [hnil],?_⟩
      exact fun _ _ => rfl
    · obtain ⟨m',hok,hin,hout⟩ := readInfos_spec (fun p hp => (mem_toSerialize.mp hp).1)
        (nodup_toSerialize m) { start := m.start, storagePointers := some m.toSerialize }
      refine ⟨m',?_,hin,hout⟩
      simp [hnil,deserialize,hok,Except.map]
  obtain ⟨m',hok,hin,hout⟩ := hread
  refine ⟨m',hok,?_⟩
  intro v
  by_cases hv : v ∈ m.toSerialize.map Prod.fst
  · obtain ⟨p,hp,rfl⟩ := mem_map.mp hv
    obtain ⟨-,info,hi,hd,hst⟩ := mem_toSerialize.mp hp
    rw [hin p hp,hi,hst]
    simp [reloadedInfo,hd]
  rw [hout v hv]
  cases hi : m.vectorInfo v with
  | none => rfl
  | some info =>
    by_cases hlt : v < rowGroupVectorCount
    · have hd : ¬ info.hasDeletes = true := by
        intro hd
        apply hv
        exact mem_map.mpr ⟨(v, info.write),mem_toSerialize.mpr ⟨hlt,info,hi,hd,rfl⟩,rfl⟩
      simp [reloadedInfo,hd]
    · rw [hfits v (not_lt.mp hlt)] at hi
      cases hi

/-- The row counts as deleted, as in `GetCommittedDeletedCount`. -/
def Deleted (m : RowVersionManager) (r : Nat) : Prop :=
  m.deletedAt r < transactionIdStart

/-- `m'` serves a row group of `n` rows as `m` did: the same rows are deleted, the
next append succeeds and its rows are visible once it is committed, and so are all
rows appended in any later history. -/
structure Survives (m m' : RowVersionManager) (n : Nat) : Prop where
  deleted : ∀ r < n, (m'.Deleted r ↔ m.Deleted r)
  next : ∀ (T₀ : TransactionData) (k c : Nat), T₀.Valid → 0 < k → n + k ≤ rowGroupSize →
    ∃ m₁ m₂, m'.appendVersionInfo T₀ n (n + k) = .ok m₁ ∧ m₁.commitAppend c n k = .ok m₂ ∧
      ∀ T : TransactionData, T.Valid → c < T.startTime → ∀ r, n ≤ r → r < n + k →
        m₂.fetch T r = true
  later : ∀ s, History.Run (History.initial m' n) s → ∀ T, s.IsActive T → ∀ r, n ≤ r → r < s.count →
    s.Sees T (s.inserter r) → s.deleter r = none → s.manager.fetch T r = true

/-- Some vector with deletes has, past the last row, a slot whose insert id is that of
no commit. -/
def StaleSlot (m : RowVersionManager) (n : Nat) : Prop :=
  ∃ v info i, m.vectorInfo v = some (.vector info) ∧ info.anyDeleted = true ∧
    info.sameInsertedId = false ∧ i < standardVectorSize ∧ n ≤ v * standardVectorSize + i ∧
    transactionIdStart - 1 ≤ info.inserted i ∧ info.inserted i ≠ invalidIndex

/-- Every row has been inserted by a commit, and its delete mark is that of a commit,
or of a transaction that was rolled back, or none. -/
structure AtRest (m : RowVersionManager) (n : Nat) : Prop where
  coherent : Coherent m n
  inserted : ∀ r < n, m.insertedAt r < transactionIdStart - 1
  deleted : ∀ r < n, m.deletedAt r < transactionIdStart - 1 ∨
    transactionIdStart ≤ m.deletedAt r ∧ m.deletedAt r ≠ invalidIndex

variable {v i : Nat} {info : ChunkVectorInfo}

theorem AtRest.fits (h : AtRest m n) (hv : rowGroupVectorCount ≤ v) : m.vectorInfo v = none := by
  have hn := h.coherent.fits
  have hok := h.coherent.info v
  have hmul : rowGroupVectorCount * standardVectorSize ≤ v * standardVectorSize :=
    Nat.mul_le_mul_right _ hv
  rw [rowGroupSize_eq] at hn
  cases hi : m.vectorInfo v with
  | none => rfl
  | some info =>
    rw [hi] at hok
    cases info with
    | constant info =>
      have := hok.1
      rw [Nat.succ_mul] at this
      have hpos := standardVectorSize_pos
      omega
    | vector info =>
      have := hok.1
      omega

section

variable (hv : m.vectorInfo v = some (.vector info)) (hi : i < standardVectorSize)
include hv

include hi in
theorem insertedAt_row : m.insertedAt (v * standardVectorSize + i) = info.inserted i := by
  unfold insertedAt
  rw [vector_of_row v hi,slot_of_row v hi,hv]
  rfl

include hi in
theorem deletedAt_row : m.deletedAt (v * standardVectorSize + i) = info.deleted i := by
  unfold deletedAt
  rw [vector_of_row v hi,slot_of_row v hi,hv]
  rfl

variable (h : AtRest m n)
include h

/-- The summary id of a vector is that of its rows, which are committed. -/
theorem AtRest.insertId_lt
    (hsame : info.sameInsertedId = true) : info.insertId < transactionIdStart - 1 := by
  have hok := h.coherent.info v
  rw [hv] at hok
  have hlt : v * standardVectorSize + 0 < n := by simpa using hok.1
  have hscan : 0 < scanCount n v := by
    unfold scanCount
    have hpos := standardVectorSize_pos
    omega
  rw [← hok.2.1.same hsame 0 hscan,← insertedAt_row hv standardVectorSize_pos]
  exact h.inserted _ hlt

include hi in
theorem AtRest.keeps_live (hlt : v * standardVectorSize + i < n) :
    info.keeps i = true ↔ ¬ info.deleted i < transactionIdStart := by
  have hins := h.inserted _ hlt
  have hdel := h.deleted _ hlt
  rw [insertedAt_row hv hi] at hins
  rw [deletedAt_row hv hi] at hdel
  have hid : info.writtenInsertId i < transactionIdStart - 1 := by
    unfold writtenInsertId
    split
    · exact h.insertId_lt hv ‹_›
    · exact hins
  have hkeep : info.keeps i = true ↔
      ¬ info.deleted i < transactionIdStart - 1 ∧ info.deleted i ≠ invalidIndex := by
    simp [keeps,transactionVersionOperator,hid]
  rw [hkeep]
  omega

include hi in
theorem AtRest.keeps_past (hle : n ≤ v * standardVectorSize + i) :
    info.keeps i = false ↔ info.sameInsertedId = false ∧ transactionIdStart - 1 ≤ info.inserted i ∧
      info.inserted i ≠ invalidIndex := by
  have hok := h.coherent.info v
  rw [hv] at hok
  have hdel := hok.2.2 i hi hle
  have hundel : transactionVersionOperator.useDeletedVersion (transactionIdStart - 1) invalidIndex
      notDeletedId = true := by decide
  unfold keeps writtenInsertId
  rw [hdel,hundel,Bool.and_true]
  cases hs : info.sameInsertedId with
  | true =>
    have := h.insertId_lt hv hs
    simp [transactionVersionOperator,this]
  | false => simp [transactionVersionOperator]

end

section

variable (h : AtRest m n) (hm : ∀ v, m'.vectorInfo v = reloadedInfo (m.vectorInfo v))
include h hm

/-- Below the row count, exactly the deleted rows are read back as deleted. -/
theorem AtRest.reloaded_deletedAt (hr : r < n) :
    m'.insertedAt r = 0 ∧
      m'.deletedAt r = if m.deletedAt r < transactionIdStart then 0 else notDeletedId := by
  have hok := h.coherent.info (r / standardVectorSize)
  have hrow := row_eq r
  have hslot := slot_lt r
  have hnd : ¬ notDeletedId < transactionIdStart := by decide
  unfold insertedAt deletedAt
  rw [hm]
  cases hv : m.vectorInfo (r / standardVectorSize) with
  | none => exact ⟨rfl,by simp [reloadedInfo,infoDeletedAt,hnd]⟩
  | some info =>
    rw [hv] at hok
    cases info with
    | constant info =>
      have hins := h.inserted r hr
      unfold insertedAt at hins
      rw [hv] at hins
      have hlt : ¬ transactionIdStart ≤ info.insertId := by
        have : info.insertId < transactionIdStart - 1 := hins
        omega
      have hpos : 0 < transactionIdStart := by decide
      rcases hok.2 with hd | hd
      · simp [reloadedInfo,ChunkInfo.hasDeletes,ChunkConstantInfo.hasDeletes,hlt,hd,hnd,
          infoInsertedAt,infoDeletedAt,ChunkInfo.deletedAt]
      · simp [reloadedInfo,ChunkInfo.hasDeletes,ChunkConstantInfo.hasDeletes,hd,hpos,
          ChunkInfo.write,ChunkConstantInfo.write,ChunkInfo.read,ChunkConstantInfo.read,
          infoInsertedAt,infoDeletedAt,ChunkInfo.insertedAt,ChunkInfo.deletedAt]
    | vector info =>
      cases hany : info.anyDeleted with
      | false =>
        have hun := hok.2.1.undeleted hany _ (lt_scanCount hr)
        simp [reloadedInfo,ChunkInfo.hasDeletes,hasDeletes,hany,hun,hnd,
          infoInsertedAt,infoDeletedAt,ChunkInfo.deletedAt]
      | true =>
        obtain ⟨h1,h2⟩ := read_write hany hslot
        have hkeep := h.keeps_live hv hslot (by omega)
        rw [reloadedInfo_vector hany]
        refine ⟨h1,h2.trans ?_⟩
        have hat : infoDeletedAt (some (.vector info)) (r % standardVectorSize) =
            info.deleted (r % standardVectorSize) := rfl
        rw [hat]
        by_cases hd : info.deleted (r % standardVectorSize) < transactionIdStart
        · rw [if_pos hd,if_neg (fun hk => hkeep.mp hk hd)]
        · rw [if_neg hd,if_pos (hkeep.mpr hd)]

/-- Without stale slots, a reloaded manager is as good as a loaded one. -/
theorem AtRest.loaded (hstale : ¬ m.StaleSlot n) : History.Loaded m' n := by
  refine ⟨⟨h.coherent.fits,?_⟩,fun r hr => (h.reloaded_deletedAt hm hr).1,?_⟩
  · intro v
    rw [hm]
    have hok := h.coherent.info v
    cases hv : m.vectorInfo v with
    | none => trivial
    | some info =>
      rw [hv] at hok
      cases info with
      | constant info =>
        by_cases hd : (ChunkInfo.constant info).hasDeletes = true
        · have hre : reloadedInfo (some (.constant info)) =
              some (.constant (ChunkConstantInfo.read info.start)) := by
            simp [reloadedInfo,hd,ChunkInfo.write,ChunkConstantInfo.write,ChunkInfo.read]
          rw [hre]
          exact ⟨hok.1,.inr rfl⟩
        · simp [reloadedInfo,hd,InfoOk]
      | vector info =>
        cases hany : info.anyDeleted with
        | false =>
          simp [reloadedInfo,ChunkInfo.hasDeletes,hasDeletes,hany,InfoOk]
        | true =>
          have hpast : ∀ i < standardVectorSize, n ≤ v * standardVectorSize + i →
              infoDeletedAt (ChunkInfo.read info.write) i = notDeletedId := by
            intro i hi hle
            rw [(read_write hany hi).2,if_pos]
            by_contra hk
            have hk := (h.keeps_past hv hi hle).mp (by simpa using hk)
            exact hstale ⟨v,info,i,hv,hany,hk.1,hi,hle,hk.2⟩
          rw [reloadedInfo_vector hany]
          rcases info.read_write_cases with he | ⟨c,he,hc⟩ | ⟨w,he,hw1,hw2,hw3⟩
          · rw [he]
            trivial
          · rw [he] at hpast ⊢
            refine ⟨?_,.inr hc⟩
            by_contra hlt
            have hpos := standardVectorSize_pos
            rw [Nat.succ_mul] at hlt
            have := hpast (standardVectorSize - 1) (by omega) (by omega)
            simp only [infoDeletedAt,ChunkInfo.deletedAt,hc] at this
            exact absurd this (by decide)
          · rw [he] at hpast ⊢
            refine ⟨hok.1,⟨?_,?_⟩,hpast⟩
            · intro _ i _
              rw [hw1,hw2]
            · intro hf
              rw [hw3] at hf
              cases hf
  · intro r hr
    rw [(h.reloaded_deletedAt hm hr).2]
    split
    · exact .inl rfl
    · exact .inr rfl

theorem AtRest.stale_deletedAt (hv : m.vectorInfo v = some (.vector info))
    (hany : info.anyDeleted = true) (hsame : info.sameInsertedId = false)
      (hi : i < standardVectorSize)
    (hle : n ≤ v * standardVectorSize + i) (hid : transactionIdStart - 1 ≤ info.inserted i)
    (hne : info.inserted i ≠ invalidIndex) : m'.deletedAt (v * standardVectorSize + i) = 0 := by
  unfold deletedAt
  rw [vector_of_row v hi,slot_of_row v hi,hm,hv,reloadedInfo_vector hany,
    (read_write hany hi).2,(h.keeps_past hv hi hle).mpr ⟨hsame,hid,hne⟩]
  rfl

end

theorem set_vectorInfo (w : Nat) (new : ChunkInfo) (v : Nat) :
    (m.set w new).vectorInfo v = if v = w then some new else m.vectorInfo v := rfl

theorem appendVector_deleted (hstart : vectorStart a v ≠ 0)
    (hd : infoDeletedAt (m.vectorInfo v) i = 0) (h : appendVector tid a b m w = .ok m') :
    infoDeletedAt (m'.vectorInfo v) i = 0 := by
  unfold appendVector at h
  dsimp only at h
  by_cases hw : v = w
  · subst hw
    have hpart : ¬ (vectorStart a v = 0 ∧ vectorEnd b v = standardVectorSize) :=
        fun hf => hstart hf.1
    rw [if_neg hpart] at h
    cases hinfo : m.vectorInfo v with
    | none =>
      rw [hinfo] at hd
      exact absurd hd (show notDeletedId ≠ 0 by decide)
    | some old =>
      rw [hinfo] at hd
      cases old with
      | constant old => simp [hinfo] at h
      | vector old =>
        simp only [hinfo,Except.ok.injEq] at h
        subst h
        simpa [set_vectorInfo,infoDeletedAt,ChunkInfo.deletedAt] using hd
  · split at h
    · cases h
      simpa [set_vectorInfo,hw] using hd
    split at h
    · cases h
      simpa [set_vectorInfo,hw] using hd
    · cases h
      simpa [set_vectorInfo,hw] using hd
    · cases h

theorem commitVector_deleted (hd : infoDeletedAt (m.vectorInfo v) i = 0)
    (h : commitVector c a b m w = .ok m') : infoDeletedAt (m'.vectorInfo v) i = 0 := by
  unfold commitVector at h
  split at h
  · cases h
  rename_i old hinfo
  cases h
  by_cases hw : v = w
  · subst hw
    rw [hinfo] at hd
    cases old with
    | constant old => simpa [set_vectorInfo,infoDeletedAt,ChunkInfo.commitAppend,
        ChunkInfo.deletedAt,
        ChunkConstantInfo.commitAppend] using hd
    | vector old => simpa [set_vectorInfo,infoDeletedAt,ChunkInfo.commitAppend,
        ChunkInfo.deletedAt] using hd
  · simpa [set_vectorInfo,hw] using hd

/-- Appending rows behind existing ones of a vector, and committing them, leaves the
deleted slots of the vector deleted. -/
theorem deletedAt_append_commit (happend : m.appendVersionInfo T₀ n n' = .ok m₁)
    (hcommit : m₁.commitAppend c n k = .ok m₂) (hv : v * standardVectorSize < n)
    (hi : i < standardVectorSize) (hle : n ≤ v * standardVectorSize + i)
    (hd : m.deletedAt (v * standardVectorSize + i) = 0) :
    m₂.deletedAt (v * standardVectorSize + i) = 0 := by
  have hend : n < (v + 1) * standardVectorSize := by
    rw [Nat.succ_mul]
    omega
  have hstart : vectorStart n v ≠ 0 := by
    have := vectorStart_eq hend
    omega
  unfold deletedAt at hd ⊢
  rw [vector_of_row v hi,slot_of_row v hi] at hd ⊢
  unfold appendVersionInfo at happend
  have h₁ : infoDeletedAt (m₁.vectorInfo v) i = 0 :=
    foldlM_keep (fun m : RowVersionManager => infoDeletedAt (m.vectorInfo v) i = 0)
      (f := appendVector T₀.transactionId n n') (fun _ _ _ => appendVector_deleted hstart)
      (s := { m with hasChanges := true }) hd happend
  unfold commitAppend at hcommit
  split at hcommit
  · cases hcommit
    exact h₁
  · exact foldlM_keep (fun m : RowVersionManager => infoDeletedAt (m.vectorInfo v) i = 0)
      (fun _ _ _ => commitVector_deleted) h₁ hcommit

/-- Everyone skips a row with delete id 0. -/
theorem fetch_loaded_deleted (hT : T.Valid) (hd : m.deletedAt r = 0) : m.fetch T r = false := by
  rw [fetch_eq hT,hd,hT.loaded]
  simp

theorem not_survives_of_stale (h : AtRest m n)
    (hm : ∀ v, m'.vectorInfo v = reloadedInfo (m.vectorInfo v)) (hstale : m.StaleSlot n) :
    ¬ Survives m m' n := by
  intro hs
  obtain ⟨v,info,i,hv,hany,hsame,hi,hle,hid,hne⟩ := hstale
  have hdel := h.stale_deletedAt hm hv hany hsame hi hle hid hne
  have hok := h.coherent.info v
  rw [hv] at hok
  have hvn := hok.1
  have hvlt : v < rowGroupVectorCount := by
    by_contra hge
    rw [h.fits (not_lt.mp hge)] at hv
    cases hv
  have hfit : v * standardVectorSize + i + 1 ≤ rowGroupSize := by
    have : (v + 1) * standardVectorSize ≤ rowGroupVectorCount * standardVectorSize :=
      Nat.mul_le_mul_right _ hvlt
    rw [Nat.succ_mul] at this
    rw [rowGroupSize_eq]
    omega
  -- the append that reaches just over the stale slot
  have hvalid : (⟨transactionIdStart,2⟩ : TransactionData).Valid :=
    ⟨by decide,by decide,by decide,by decide⟩
  obtain ⟨m₁,m₂,happend,hcommit,hsee⟩ := hs.next ⟨transactionIdStart,2⟩
    (v * standardVectorSize + i + 1 - n) 1 hvalid (by omega) (by omega)
  have hfetch := hsee _ hvalid (by decide) (v * standardVectorSize + i) hle (by omega)
  rw [fetch_loaded_deleted hvalid (deletedAt_append_commit happend hcommit hvn hi hle hdel)]
    at hfetch
  cases hfetch

/-- A manager as after loading serves all later appends. -/
theorem survives_of_loaded (h : History.Loaded m' n) (hd : ∀ r < n, (m'.Deleted r ↔ m.Deleted r)) :
    Survives m m' n := by
  refine ⟨hd,?_,?_⟩
  · intro T₀ k c hT₀ hk hfit
    have hpos : 0 < transactionIdStart := by decide
    have hne : T₀.transactionId ≠ 0 := by
      have := hT₀.id_ge
      omega
    obtain ⟨m₁,happend,hc₁,hins,hdel⟩ := h.coherent.append T₀ (by omega : n < n + k) hfit
    have hlast : LastAppend m₁ (n + k) n T₀.transactionId := by
      refine ⟨by omega,?_,?_⟩
      · intro r h1 h2
        rw [hins r h2,if_pos h1]
      · intro r hr
        rw [hins r (by omega),if_neg (by omega),h.inserted r hr]
        exact hne.symm
    obtain ⟨m₂,hcommit,-,hins₂,hdel₂⟩ := hc₁.commit hlast hne c
    rw [Nat.add_sub_cancel_left] at hcommit
    refine ⟨m₁,m₂,happend,hcommit,?_⟩
    intro T hT hstart r h1 h2
    rw [fetch_eq hT,hins₂ r h2,if_pos h1,hdel₂,hdel,h.coherent.deletedAt_past h1,hT.undeleted]
    simp [hstart]
  · intro s hs T hT r _ hr hsees hnone
    have hinv := History.inv_run (History.inv_initial h) hs
    rw [hinv.fetch_iff hT hr]
    refine ⟨hsees,?_⟩
    intro t ht
    rw [hnone] at ht
    cases ht

end RowVersionManager

end PredTrans.Storage
