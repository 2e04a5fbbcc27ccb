import PredTrans.Compression.BitpackingGroups

/-! The analysis and the compression collect the same rows in buffers of their own; what the buffers
held before does not matter for the question whether a group can be written. -/

namespace PredTrans.Compression.Bitpacking
open List

namespace BitpackingState

variable {t : IntegerType} {st st' : BitpackingState t} {mode : BitpackingMode}

/-- The states have taken in the same rows. -/
structure Similar (st st' : BitpackingState t) : Prop where
  count : st.count = st'.count
  minimum : st.minimum = st'.minimum
  maximum : st.maximum = st'.maximum
  allValid : st.allValid = st'.allValid
  allInvalid : st.allInvalid = st'.allInvalid
  buffer : st.allValid = true → ∀ i < st.count, st.buffer i = st'.buffer i

theorem similar_reset (buffer buffer' : Nat → BitVec t.bits) :
    Similar (reset buffer) (reset buffer') :=
  ⟨rfl,rfl,rfl,rfl,rfl,fun _ i hi => absurd hi (Nat.not_lt_zero i)⟩

theorem Similar.add (h : Similar st st') (value : BitVec t.bits) (valid : Bool) :
    Similar (st.add value valid) (st'.add value valid) := by
  obtain ⟨hcount,hmin,hmax,hvalid,hinvalid,hbuf⟩ := h
  constructor
  · simp [BitpackingState.add,hcount]
  · simp [BitpackingState.add,hmin]
  · simp [BitpackingState.add,hmax]
  · simp [BitpackingState.add,hvalid]
  · simp [BitpackingState.add,hinvalid]
  intro hall i hi
  obtain ⟨hst,rfl⟩ := (Bool.and_eq_true _ _).mp hall
  simp only [BitpackingState.add,if_true,← hcount]
  by_cases heq : i = st.count
  · simp [heq]
  · have hlt : i < st.count := by
      simp only [BitpackingState.add] at hi
      omega
    simp [heq,hbuf hst i hlt]

/-- The part of the delta statistics that decides how a group is written. -/
def deltaKey (d : DeltaStats t) : BitVec t.bits × BitVec t.bits × BitVec t.bits :=
  (d.minimumDelta, d.maximumDelta, d.minMaxDeltaDiff)

theorem Similar.calculateDeltaStats (h : Similar st st') :
    st.calculateDeltaStats.map deltaKey = st'.calculateDeltaStats.map deltaKey := by
  obtain ⟨hcount,hmin,hmax,hvalid,-,hbuf⟩ := h
  unfold BitpackingState.calculateDeltaStats
  rw [← hmin,← hmax,← hcount,← hvalid]
  split
  · rfl
  split
  · rfl
  split
  · rfl
  rename_i hall
  have hbuf := hbuf (by simpa using hall)
  have hprev : ∀ i < st.count, st.previous i = st'.previous i := by
    intro i hi
    unfold previous
    split
    · rfl
    · exact hbuf (i - 1) (by omega)
  have hcheck : (List.range st.count).all
        (fun i => (trySubtract true (st.buffer i) (st.previous i)).1) =
      (List.range st.count).all (fun i => (trySubtract true (st'.buffer i)
          (st'.previous i)).1) := by
    rw [Bool.eq_iff_iff,all_eq_true,all_eq_true]
    constructor
    · intro hok i hi
      have hi' := mem_range.mp hi
      rw [← hbuf i hi',← hprev i hi']
      exact hok i hi
    · intro hok i hi
      have hi' := mem_range.mp hi
      rw [hbuf i hi',hprev i hi']
      exact hok i hi
  have hdeltas : (List.range (st.count - 1)).map
        (fun i => st.buffer (i + 1) - st.previous (i + 1)) =
      (List.range (st.count - 1)).map (fun i => st'.buffer (i + 1) - st'.previous (i + 1)) := by
    apply map_congr_left
    intro i hi
    have hi' := mem_range.mp hi
    rw [hbuf (i + 1) (by omega),hprev (i + 1) (by omega)]
  have hfirst := hbuf 0 (by omega)
  dsimp only
  rw [hcheck,hdeltas,hfirst]
  split
  · split <;> rfl
  · rfl

theorem flushFor_failed_iff : st.flushFor.1 = .failed ↔
    (trySubtract t.isSigned st.maximum st.minimum).1 = false := by
  unfold flushFor
  dsimp only
  split
  · rename_i hs
    simp [hs]
  · rename_i hs
    simpa using hs

theorem Similar.flush_failed (h : Similar st st') (hf : (st'.flush mode).1 = .failed) :
    (st.flush mode).1 = .failed := by
  have hkey := h.calculateDeltaStats
  obtain ⟨hcount,hmin,hmax,hvalid,hinvalid,-⟩ := h
  have hfor : st'.flushFor.1 = .failed → st.flushFor.1 = .failed := by
    rw [flushFor_failed_iff,flushFor_failed_iff,hmin,hmax]
    exact id
  unfold BitpackingState.flush at hf ⊢
  rw [hcount,hinvalid,hmax,hmin]
  split at hf
  · cases hf
  split at hf
  · cases hf
  rename_i hc hconst
  rw [if_neg hc,if_neg hconst]
  split at hf
  · rename_i hnone
    rw [hnone,Option.map_none,Option.map_eq_none_iff] at hkey
    rw [hkey]
    exact hfor hf
  rename_i d' hsome
  rw [hsome,Option.map_some,Option.map_eq_some_iff] at hkey
  obtain ⟨d,hd,hkey⟩ := hkey
  simp only [deltaKey,Prod.mk.injEq] at hkey
  obtain ⟨hmind,hmaxd,hdiff⟩ := hkey
  rw [hd]
  dsimp only
  rw [hmind,hmaxd,hdiff]
  split at hf
  · cases hf
  rename_i hne
  rw [if_neg hne]
  dsimp only at hf
  split at hf
  · cases hf
  · rename_i hwidth
    rw [if_neg hwidth]
    exact hfor hf

theorem Similar.update (h : Similar st st') (mode : BitpackingMode) (value : BitVec t.bits)
    (valid : Bool) :
    Similar (st.update mode value valid).2 (st'.update mode value valid).2 ∧
      ((st'.update mode value valid).1 = .failed → (st.update mode value valid).1 = .failed) := by
  have hadd := h.add value valid
  unfold BitpackingState.update
  dsimp only
  rw [hadd.count]
  split
  · exact ⟨similar_reset _ _,hadd.flush_failed⟩
  · exact ⟨hadd,by simp⟩

end BitpackingState

end PredTrans.Compression.Bitpacking
