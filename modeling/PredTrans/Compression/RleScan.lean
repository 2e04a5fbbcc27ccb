import PredTrans.Compression.Rle

/-!
# What the reader of run length encoding finds

The reader passes over at least one row for every run, also for a run of count zero.
-/

namespace PredTrans.Compression.Rle
open List

variable {T : Type*}

/-- The rows that the reader finds. -/
def effective (entries : List (T × Nat)) : List T :=
  entries.flatMap (fun e => List.replicate (max e.2 1) e.1)

namespace RleScanState

variable {s : RleSegment T} {st : RleScanState}

/-- The rows from the current position on. -/
def remaining (s : RleSegment T) (st : RleScanState) : List T :=
  (effective (s.entries.drop st.entryPos)).drop st.positionInEntry

/-- The position lies in the current run. -/
def Within (s : RleSegment T) (st : RleScanState) : Prop :=
  match s.entries[st.entryPos]? with
  | some e => st.positionInEntry < max e.2 1
  | none => st.positionInEntry = 0

theorem remaining_initial (s : RleSegment T) : remaining s initial = effective s.entries := by
  simp [remaining,initial]

theorem within_next (s : RleSegment T) (n : Nat) : Within s ⟨n, 0⟩ := by
  unfold Within
  split
  · simp
  · rfl

theorem within_initial (s : RleSegment T) : Within s initial := within_next s 0

theorem remaining_of_some (he : s.entries[st.entryPos]? = some e) (hw : Within s st) :
    remaining s st = List.replicate (max e.2 1 - st.positionInEntry) e.1 ++
      effective (s.entries.drop (st.entryPos + 1)) := by
  obtain ⟨hlt,he'⟩ := List.getElem?_eq_some_iff.mp he
  rw [Within,he] at hw
  have hdrop : s.entries.drop st.entryPos = e :: s.entries.drop (st.entryPos + 1) := by
    rw [← he',drop_eq_getElem_cons hlt]
  have hle : st.positionInEntry - max e.2 1 = 0 := by
    omega
  rw [remaining,hdrop,effective,flatMap_cons,drop_append]
  simp [hle,effective]

theorem remaining_of_none (he : s.entries[st.entryPos]? = none) : remaining s st = [] := by
  have hle := List.getElem?_eq_none_iff.mp he
  simp [remaining,drop_eq_nil_of_le hle,effective]

theorem value?_eq (hw : Within s st) : value? s st = (remaining s st).head? := by
  cases he : s.entries[st.entryPos]? with
  | none => simp [value?,he,remaining_of_none he]
  | some e =>
    have hpos : 0 < max e.2 1 - st.positionInEntry := by
      rw [Within,he] at hw
      omega
    obtain ⟨k,hk⟩ := Nat.exists_eq_succ_of_ne_zero hpos.ne'
    simp [value?,he,remaining_of_some he hw,hk,replicate_succ]

theorem advance_spec (hw : Within s st) (hn : 0 < n)
    (hle : n = 1 ∨ n ≤ runLength s st - st.positionInEntry) :
    Within s (st.advance s n) ∧ remaining s (st.advance s n) = (remaining s st).drop n := by
  cases he : s.entries[st.entryPos]? with
  | none =>
    have hlen := List.getElem?_eq_none_iff.mp he
    have hrun : runLength s { st with positionInEntry := st.positionInEntry + n } = 0 := by
      simp [runLength,he]
    have hadv : st.advance s n = ⟨st.entryPos + 1,0⟩ := by
      simp [advance,hrun]
    have hnone : s.entries[st.entryPos + 1]? = none := by
      apply List.getElem?_eq_none_iff.mpr
      omega
    rw [hadv,remaining_of_none he,@remaining_of_none T s ⟨st.entryPos + 1,0⟩ hnone]
    exact ⟨within_next _ _,by simp⟩
  | some e =>
    have hrun : ∀ k, runLength s { st with positionInEntry := k } = e.2 := by
      simp [runLength,he]
    have hin : st.positionInEntry < max e.2 1 := by
      rw [Within,he] at hw
      exact hw
    have hle' : st.positionInEntry + n ≤ max e.2 1 := by
      rcases hle with h1 | h2
      · omega
      · rw [show runLength s st = e.2 from hrun st.positionInEntry] at h2
        omega
    rw [remaining_of_some he hw,drop_append]
    by_cases hex : st.positionInEntry + n ≥ e.2
    · have hadv : st.advance s n = ⟨st.entryPos + 1,0⟩ := by
        simp [advance,hrun,hex]
      have hsub : max e.2 1 - st.positionInEntry = n := by omega
      rw [hadv]
      refine ⟨within_next _ _,?_⟩
      simp [remaining,hsub]
    · have hadv : st.advance s n = { st with positionInEntry := st.positionInEntry + n } := by
        simp [advance,hrun,hex]
      have hw' : Within s { st with positionInEntry := st.positionInEntry + n } := by
        rw [Within]
        simp only [he]
        omega
      rw [hadv]
      refine ⟨hw',?_⟩
      rw [@remaining_of_some T s { st with positionInEntry := st.positionInEntry + n } e he hw']
      have h0 : n - (max e.2 1 - st.positionInEntry) = 0 := by omega
      simp [h0,Nat.sub_sub]

theorem skip_spec (n : Nat) (hw : Within s st) :
    Within s (st.skip s n) ∧ remaining s (st.skip s n) = (remaining s st).drop n := by
  induction n generalizing st with
  | zero => exact ⟨hw,rfl⟩
  | succ n ih =>
    obtain ⟨hw',hr⟩ := advance_spec hw one_pos (.inl rfl)
    obtain ⟨hw'',hr'⟩ := ih hw'
    refine ⟨hw'',?_⟩
    rw [skip,hr',hr,drop_drop,add_comm]

theorem scanFlat_spec (n : Nat) (hw : Within s st) :
    (scanFlat s st n).1 = (List.range n).map (fun i => (remaining s st)[i]?) ∧
      Within s (scanFlat s st n).2 ∧
      remaining s (scanFlat s st n).2 = (remaining s st).drop n := by
  induction n generalizing st with
  | zero => exact ⟨rfl,hw,rfl⟩
  | succ n ih =>
    obtain ⟨hw',hr⟩ := advance_spec hw one_pos (.inl rfl)
    obtain ⟨hv,hw'',hr'⟩ := ih hw'
    refine ⟨?_,hw'',?_⟩
    · rw [scanFlat,range_succ_eq_map,map_cons,map_map,hv,hr,value?_eq hw,
        head?_eq_getElem?]
      refine congrArg (List.cons _) (map_congr_left ?_)
      intro i _
      rw [getElem?_drop,add_comm 1 i]
      rfl
    · rw [scanFlat,hr',hr,drop_drop,add_comm]

/-- A scan returns the next rows, whether it emits a constant vector or not. -/
theorem scanPartialInternal_spec (entire : Bool) (n : Nat) (hw : Within s st) :
    (scanPartialInternal s entire st n).1 = (List.range n).map (fun i => (remaining s st)[i]?) ∧
      Within s (scanPartialInternal s entire st n).2 ∧
      remaining s (scanPartialInternal s entire st n).2 = (remaining s st).drop n := by
  unfold scanPartialInternal
  split
  · rename_i hc
    simp only [canEmitConstantVector,Bool.and_eq_true,decide_eq_true_eq] at hc
    obtain ⟨-,hn,hrun⟩ := hc
    have hpos : 0 < n := by
      rw [hn]
      decide
    obtain ⟨hw',hr⟩ := advance_spec hw hpos (.inr hrun)
    refine ⟨?_,hw',hr⟩
    cases he : s.entries[st.entryPos]? with
    | none =>
      rw [runLength,he] at hrun
      simp only [Option.map_none,Option.getD_none] at hrun
      omega
    | some e =>
      rw [runLength,he] at hrun
      simp only [Option.map_some,Option.getD_some] at hrun
      have hval : value? s st = some e.1 := by simp [value?,he]
      apply ext_getElem?
      intro i
      rw [hval,remaining_of_some he hw]
      by_cases hi : i < n
      · have hi' : i < max e.2 1 - st.positionInEntry := by omega
        simp [hi,getElem?_append,hi']
      · simp [hi]
  · exact scanFlat_spec n hw

end RleScanState

open RleScanState in
theorem readCalls_spec (hw : Within s st) {i : Nat} {v : Option T}
    (h : (readCalls s st calls)[i]? = some (some v)) : v = (remaining s st)[i]? := by
  induction calls generalizing st i with
  | nil => simp [readCalls] at h
  | cons call calls ih =>
    have hrest : ∀ (first : List (Option (Option T))) (st' : RleScanState) (n : Nat),
        first.length = n →
        Within s st' → remaining s st' = (remaining s st).drop n →
        (∀ (i : Nat) (v : Option T), first[i]? = some (some v) → v = (remaining s st)[i]?) →
        (first ++ readCalls s st' calls)[i]? = some (some v) → v = (remaining s st)[i]? := by
      intro first st' n hlen hw' hr hfirst hget
      rw [getElem?_append] at hget
      split at hget
      · exact hfirst i v hget
      · rw [ih hw' hget,hr,getElem?_drop]
        congr 1
        omega
    have hscan : ∀ (n : Nat) (i : Nat) (v : Option T),
        (((List.range n).map (fun i => (remaining s st)[i]?)).map some)[i]? = some (some v) →
        v = (remaining s st)[i]? := by
      intro n i v hget
      simp only [getElem?_map,Option.map_eq_some_iff] at hget
      obtain ⟨a,⟨j,hj,ha⟩,hv⟩ := hget
      obtain ⟨hlt,hj⟩ := List.getElem?_eq_some_iff.mp hj
      simp only [getElem_range] at hj
      rw [← Option.some.inj hv,← ha,hj]
    cases call with
    | skip n =>
      obtain ⟨hw',hr⟩ := skip_spec n hw
      refine hrest _ _ n length_replicate hw' hr ?_ h
      intro i v hget
      simp [getElem?_replicate] at hget
    | scanPartial n =>
      obtain ⟨hv,hw',hr⟩ := scanPartialInternal_spec false n hw
      rw [readCalls] at h
      simp only [hv] at h
      exact hrest _ _ n (by simp) hw' hr (hscan n) h
    | scan n =>
      obtain ⟨hv,hw',hr⟩ := scanPartialInternal_spec true n hw
      rw [readCalls] at h
      simp only [hv] at h
      exact hrest _ _ n (by simp) hw' hr (hscan n) h

theorem fetchRow_spec (s : RleSegment T) (row : Nat) :
    fetchRow s row = (effective s.entries)[row]? := by
  obtain ⟨hw,hr⟩ := RleScanState.skip_spec row (RleScanState.within_initial s)
  rw [fetchRow,RleScanState.value?_eq hw,hr,RleScanState.remaining_initial,head?_drop]

end PredTrans.Compression.Rle
