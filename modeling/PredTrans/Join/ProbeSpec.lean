import PredTrans.Join.Probe
import PredTrans.Join.TableContents
import PredTrans.Library.Joins
import PredTrans.Library.Lists

/-! A scan structure still owes the matches of the chains its selected rows point to (`remaining`);
each call of `Next` delivers some of them and moves on. -/

namespace PredTrans.Join
open List Library

variable {n : Nat} {V L P : Type}

namespace ScanStructure

/-- Every selected row has a pointer, and no chain is longer than `k`. -/
def Live (ss : ScanStructure n V P) (k : Nat) : Prop :=
  ∀ idx ∈ ss.selVector, ss.pointers idx ≠ [] ∧ (ss.pointers idx).length ≤ k

variable {cfg : JoinConfig n V} {ss : ScanStructure n V P} {k : Nat}

theorem Live.selVector_eq_nil (h : ss.Live 0) : ss.selVector = [] := by
  rw [eq_nil_iff_forall_not_mem]
  intro idx hidx
  obtain ⟨hne,hlen⟩ := h idx hidx
  exact hne (by simpa using hlen)

theorem mem_selVector_advance :
    idx ∈ (ss.advancePointers ss.selVector).selVector
      ↔ idx ∈ ss.selVector ∧ (ss.pointers idx).tail ≠ [] := by
  simp only [advancePointers,mem_filter]
  constructor
  all_goals
    rintro ⟨hsel,htail⟩
    exact ⟨hsel,by simpa [hsel] using htail⟩

theorem pointers_advance (h : idx ∈ ss.selVector) :
    (ss.advancePointers ss.selVector).pointers idx = (ss.pointers idx).tail := by
  simp [advancePointers,h]

theorem live_advance (h : ss.Live k) : (ss.advancePointers ss.selVector).Live (k - 1) := by
  intro idx hidx
  obtain ⟨hsel,htail⟩ := mem_selVector_advance.mp hidx
  have hlen := (h idx hsel).2
  rw [pointers_advance hsel]
  exact ⟨htail,by rw [length_tail]; omega⟩

@[simp]
theorem selVector_recordMatches (sel : List Nat) :
    (ss.recordMatches cfg sel).selVector = ss.selVector := by
  unfold recordMatches
  split <;> rfl

@[simp]
theorem pointers_recordMatches (sel : List Nat) :
    (ss.recordMatches cfg sel).pointers = ss.pointers := by
  unfold recordMatches
  split <;> rfl

@[simp]
theorem finished_recordMatches (sel : List Nat) :
    (ss.recordMatches cfg sel).finished = ss.finished := by
  unfold recordMatches
  split <;> rfl

theorem foundMatch_recordMatches (h : cfg.joinType ≠ .inner) (sel : List Nat) (idx : Nat) :
    (ss.recordMatches cfg sel).foundMatch idx = (ss.foundMatch idx || sel.contains idx) := by
  simp [recordMatches,h,setFound]

theorem live_recordMatches (cfg : JoinConfig n V) (h : ss.Live k) (sel : List Nat) :
    (ss.recordMatches cfg sel).Live k := by
  simpa [Live] using h

/-- The "found" booleans after the given matches. -/
def marked (cfg : JoinConfig n V) (found : Nat → Bool) (rows : List (Nat × Pointer n V P)) :
    Nat → Bool :=
  if propagatesBuildSide cfg.joinType then markFound found rows else found

/-- The result rows of the given matches. -/
def emitted (cfg : JoinConfig n V) (left : Nat → L) (rows : List (Nat × Pointer n V P)) :
    List (ResultRow L P) :=
  if cfg.joinType = .rightSemi ∨ cfg.joinType = .rightAnti then [] else emit left rows

@[simp]
theorem marked_nil (found : Nat → Bool) :
    marked cfg found ([] : List (Nat × Pointer n V P)) = found := by
  unfold marked
  split
  · funext address
    simp [markFound]
  · rfl

theorem marked_append (found : Nat → Bool) (rows more : List (Nat × Pointer n V P)) :
    marked cfg found (rows ++ more) = marked cfg (marked cfg found rows) more := by
  unfold marked
  split
  · funext address
    simp [markFound,Bool.or_assoc]
  · rfl

@[simp]
theorem emitted_nil (left : Nat → L) : emitted cfg left ([] : List (Nat × Pointer n V P)) = [] := by
  simp [emitted,emit]

theorem emitted_append (left : Nat → L) (rows more : List (Nat × Pointer n V P)) :
    emitted cfg left (rows ++ more) = emitted cfg left rows ++ emitted cfg left more := by
  unfold emitted
  split <;> simp [emit]

/-- The join types that add the unmatched rows of the left side. -/
def isLeftLike : JoinType → Bool
  | .left | .outer => true
  | _ => false

theorem emitted_leftLike (h : isLeftLike cfg.joinType) (left : Nat → L)
    (rows : List (Nat × Pointer n V P)) : emitted cfg left rows = emit left rows := by
  unfold emitted
  cases htype : cfg.joinType <;> simp_all [isLeftLike]

theorem any_heads (h : ∀ idx ∈ sel, ss.pointers idx ≠ []) (i : Nat) :
    (ss.heads sel).any (fun row => row.1 = i) = sel.contains i := by
  rw [Bool.eq_iff_iff]
  simp only [heads,any_eq_true,mem_flatMap,mem_map,decide_eq_true_eq,
    contains_iff_mem]
  constructor
  · rintro ⟨_,⟨idx,hidx,row,_,rfl⟩,rfl⟩
    exact hidx
  · intro hi
    obtain ⟨row,rest,hptr⟩ := exists_cons_of_ne_nil (h i hi)
    exact ⟨(i, row),⟨i,hi,row,by simp [hptr],rfl⟩,rfl⟩

variable [LinearOrder V] (cfg) (keys : Nat → Keys n V)

/-- The matches in the chains of the selected rows. -/
def remaining (ss : ScanStructure n V P) : List (Nat × Pointer n V P) :=
  ss.selVector.flatMap fun idx =>
    ((ss.pointers idx).filter fun row => cfg.rowMatches (keys idx) row.2.keys).map fun row =>
      (idx, row)

variable {cfg keys}

theorem remaining_of_selVector_eq_nil (h : ss.selVector = []) : ss.remaining cfg keys = [] := by
  simp [remaining,h]

theorem remaining_advance_eq : (ss.advancePointers ss.selVector).remaining cfg keys
    = ss.selVector.flatMap fun idx =>
      ((ss.pointers idx).tail.filter fun row => cfg.rowMatches (keys idx) row.2.keys).map
        fun row => (idx, row) := by
  unfold remaining
  simp only [advancePointers,flatMap_filter_eq]
  apply flatMap_congr
  intro idx hidx
  cases (ss.pointers idx).tail <;> simp [hidx]

/-- Moving all selected rows on delivers the matches at their heads. -/
theorem remaining_perm_advance (cfg : JoinConfig n V) (keys : Nat → Keys n V)
    (ss : ScanStructure n V P) : (ss.remaining cfg keys).Perm
    (ss.heads (ss.resolvePredicates cfg keys).1
      ++ (ss.advancePointers ss.selVector).remaining cfg keys) := by
  rw [remaining_advance_eq,heads,resolvePredicates,partition_eq_filter_filter]
  simp only [flatMap_filter_eq]
  refine List.Perm.trans (List.Perm.of_eq ?_) (flatMap_append_perm _ _ _).symm
  apply flatMap_congr
  intro idx _
  cases hptr : ss.pointers idx with
  | nil => simp
  | cons row rest => cases hm : cfg.rowMatches (keys idx) row.2.keys <;> simp [headMatches,hptr,hm]

@[simp]
theorem remaining_recordMatches (sel : List Nat) :
    (ss.recordMatches cfg sel).remaining cfg keys = ss.remaining cfg keys := by
  simp [remaining]

@[simp]
theorem resolve_recordMatches (sel : List Nat) :
    (ss.recordMatches cfg sel).resolvePredicates cfg keys = ss.resolvePredicates cfg keys := by
  unfold resolvePredicates
  rw [selVector_recordMatches]
  congr 1
  funext idx
  simp [headMatches]

/-- What `ScanInnerJoin` guarantees: nothing is skipped, and either some selected row matches at its
pointer or nothing is left. -/
structure InnerScan (cfg : JoinConfig n V) (keys : Nat → Keys n V) (k : Nat)
    (ss ss' : ScanStructure n V P) (result : List Nat) : Prop where
  live : ss'.Live k
  finished : ss'.finished = ss.finished
  remaining : (ss'.remaining cfg keys).Perm (ss.remaining cfg keys)
  resolved : result = (ss'.resolvePredicates cfg keys).1
  flags : cfg.joinType ≠ .inner → ∀ idx,
    ss'.foundMatch idx = (ss.foundMatch idx || result.contains idx)
  exhausted : result = [] → ss'.selVector = []

theorem scanInnerJoin_spec (cfg : JoinConfig n V) (keys : Nat → Keys n V) (hfuel : k ≤ fuel)
    (hlive : ss.Live k) (hsel : ss.selVector ≠ []) :
    InnerScan cfg keys k ss (scanInnerJoin cfg keys fuel ss).1
      (scanInnerJoin cfg keys fuel ss).2 := by
  induction fuel generalizing ss k with
  | zero =>
    obtain rfl : k = 0 := by omega
    exact absurd hlive.selVector_eq_nil hsel
  | succ fuel ih =>
    simp only [scanInnerJoin]
    by_cases hres : (ss.resolvePredicates cfg keys).1 = []
    · -- no match at any pointer: every chain moves on
      have hperm := remaining_perm_advance cfg keys (ss.recordMatches cfg [])
      simp only [resolve_recordMatches,hres,heads,flatMap_nil,nil_append,
        remaining_recordMatches] at hperm
      have hlive' := live_advance (live_recordMatches cfg hlive [])
      simp only [hres,ne_eq,not_true_eq_false,if_false]
      split
      · rename_i hnil
        refine ⟨fun idx hidx => ?_,?_,hperm.symm,?_,?_,fun _ => hnil⟩
        · rw [hnil] at hidx
          simp at hidx
        · simp [advancePointers]
        · simp only [resolvePredicates]
          rw [hnil]
          rfl
        · intro hinner idx
          simp [advancePointers,foundMatch_recordMatches hinner]
      · rename_i hne
        have hscan := ih (by omega) hlive' hne
        refine ⟨fun idx hidx => ?_,?_,hscan.remaining.trans hperm.symm,hscan.resolved,?_,
          hscan.exhausted⟩
        · obtain ⟨hptr,hlen⟩ := hscan.live idx hidx
          exact ⟨hptr,by omega⟩
        · rw [hscan.finished]
          simp [advancePointers]
        · intro hinner idx
          rw [hscan.flags hinner idx]
          simp [advancePointers,foundMatch_recordMatches hinner]
    · simp only [hres,ne_eq,not_false_eq_true,if_true]
      exact ⟨live_recordMatches cfg hlive _,by simp,by simp,by simp,
        fun hinner idx => foundMatch_recordMatches hinner _ idx,fun h => absurd h hres⟩

/-- What a call of `NextInnerJoin` guarantees: it delivers the matches `done`, and when it delivers
none nothing is left. -/
structure InnerStep (cfg : JoinConfig n V) (chunk : DataChunk n V L) (k : Nat)
    (ss : ScanStructure n V P) (found : Nat → Bool) (s : Scanned n V L P)
    (done : List (Nat × Pointer n V P)) : Prop where
  live : s.ss.Live (k - 1)
  finished : s.ss.finished = ss.finished
  remaining : (ss.remaining cfg chunk.keys).Perm (done ++ s.ss.remaining cfg chunk.keys)
  found : s.found = marked cfg found done
  result : s.result = emitted cfg chunk.payload done
  flags : cfg.joinType ≠ .inner → ∀ idx,
    s.ss.foundMatch idx = (ss.foundMatch idx || done.any fun row => row.1 = idx)
  exhausted : done = [] → s.ss.selVector = []

variable (chunk : DataChunk n V L) (found : Nat → Bool)

theorem nextInnerJoin_spec (cfg : JoinConfig n V) (hfuel : k ≤ fuel) (hlive : ss.Live k) :
    ∃ done, InnerStep cfg chunk k ss found (nextInnerJoin cfg fuel chunk ss found) done := by
  unfold nextInnerJoin
  by_cases hsel : ss.selVector = []
  · rw [if_pos hsel]
    exact ⟨[],fun idx hidx => by simp [hsel] at hidx,rfl,by simp,by simp,by simp,by simp,
      fun _ => hsel⟩
  rw [if_neg hsel]
  have hscan := scanInnerJoin_spec cfg chunk.keys hfuel hlive hsel
  rcases hrun : scanInnerJoin cfg chunk.keys fuel ss with ⟨ss',result⟩
  rw [hrun] at hscan
  dsimp only at hscan ⊢
  by_cases hres : result = []
  · rw [if_pos hres]
    have hnil := hscan.exhausted hres
    have hrem := hscan.remaining
    refine ⟨[],fun idx hidx => by simp [hnil] at hidx,hscan.finished,?_,by simp,by simp,?_,
      fun _ => hnil⟩
    · simpa [remaining_of_selVector_eq_nil hnil] using hrem.symm
    · intro hinner idx
      simp [hscan.flags hinner idx,hres]
  rw [if_neg hres]
  have hptr : ∀ idx ∈ result, ss'.pointers idx ≠ [] := by
    intro idx hidx
    rw [hscan.resolved] at hidx
    exact (hscan.live idx (mem_resolve_fst.mp hidx).1).1
  refine ⟨ss'.heads result,live_advance hscan.live,hscan.finished,?_,rfl,rfl,?_,?_⟩
  · have hadv := remaining_perm_advance cfg chunk.keys ss'
    rw [← hscan.resolved] at hadv
    exact hscan.remaining.symm.trans hadv
  · intro hinner idx
    rw [any_heads hptr]
    exact hscan.flags hinner idx
  · intro hnone
    obtain ⟨idx,rest,rfl⟩ := exists_cons_of_ne_nil hres
    have hany := any_heads hptr idx
    simp [hnone] at hany

theorem drain_finished (h : ss.finished) (fuel calls : Nat) :
    drain cfg fuel chunk calls ss found = (found, []) := by
  induction calls with
  | zero => rfl
  | succ calls ih => simp [drain,next,h,ih]

/-- The join types whose probe only follows the chains. -/
def isInnerLike : JoinType → Bool
  | .inner | .right | .rightSemi | .rightAnti => true
  | _ => false

theorem next_innerLike (h : isInnerLike cfg.joinType) (hfin : ss.finished = false) (fuel : Nat) :
    next cfg fuel chunk ss found = nextInnerJoin cfg fuel chunk ss found := by
  unfold next
  cases htype : cfg.joinType <;> simp_all [isInnerLike]

theorem drain_innerLike (h : isInnerLike cfg.joinType) (hfuel : k ≤ fuel) (hcalls : k < calls)
    (hlive : ss.Live k) (hfin : ss.finished = false) :
    ∃ done, (ss.remaining cfg chunk.keys).Perm done
      ∧ drain cfg fuel chunk calls ss found
        = (marked cfg found done, emitted cfg chunk.payload done) := by
  induction calls generalizing ss k found with
  | zero => omega
  | succ calls ih =>
    obtain ⟨done,hstep⟩ := nextInnerJoin_spec chunk found cfg hfuel hlive
    simp only [drain,next_innerLike chunk found h hfin]
    split
    · rename_i hstop
      refine ⟨done,?_,by rw [hstep.found,hstep.result]⟩
      simpa [remaining_of_selVector_eq_nil hstop.1] using hstep.remaining
    rename_i hgo
    cases k with
    | zero =>
      -- no chain is left, so the loop would have stopped
      have hnil := hlive.selVector_eq_nil
      simp [nextInnerJoin,hnil] at hgo
    | succ k =>
      obtain ⟨more,hrem,hrun⟩ := ih (k := k) (nextInnerJoin cfg fuel chunk ss found).found
        (by omega) (by omega) hstep.live (hstep.finished.trans hfin)
      refine ⟨done ++ more,hstep.remaining.trans (hrem.append_left done),?_⟩
      rw [hrun,hstep.found,hstep.result,← marked_append,← emitted_append]

theorem next_leftLike (h : isLeftLike cfg.joinType) (hfin : ss.finished = false) (fuel : Nat) :
    next cfg fuel chunk ss found = nextLeftJoin cfg fuel chunk ss found := by
  unfold next
  cases htype : cfg.joinType <;> simp_all [isLeftLike]

/-- The rows of the chunk that have no match, given the matches. -/
def unmatchedRows (chunk : DataChunk n V L) (flags : Nat → Bool)
    (done : List (Nat × Pointer n V P)) : List (ResultRow L P) :=
  ((List.range chunk.size).filter fun idx =>
    !(flags idx || done.any fun row => row.1 = idx)).map fun idx =>
      (some (chunk.payload idx), none)

theorem nextLeftJoin_of_matches (h : (nextInnerJoin cfg fuel chunk ss found).result ≠ []) :
    nextLeftJoin cfg fuel chunk ss found = nextInnerJoin cfg fuel chunk ss found :=
  if_neg h

theorem nextLeftJoin_of_none (h : (nextInnerJoin cfg fuel chunk ss found).result = []) :
    nextLeftJoin cfg fuel chunk ss found
      = ⟨{ (nextInnerJoin cfg fuel chunk ss found).ss with finished := true },
        (nextInnerJoin cfg fuel chunk ss found).found,
        (nextInnerJoin cfg fuel chunk ss found).ss.leftRows chunk false⟩ :=
  if_pos h

theorem drain_succ_leftLike (h : isLeftLike cfg.joinType) (hfin : ss.finished = false)
    (fuel calls : Nat) :
    drain cfg fuel chunk (calls + 1) ss found
      = ((drain cfg fuel chunk calls (next cfg fuel chunk ss found).ss
          (next cfg fuel chunk ss found).found).1,
        (next cfg fuel chunk ss found).result
          ++ (drain cfg fuel chunk calls (next cfg fuel chunk ss found).ss
            (next cfg fuel chunk ss found).found).2) := by
  simp only [drain]
  split
  · rename_i hstop
    have hdone : (next cfg fuel chunk ss found).ss.finished = true := by
      have hempty := hstop.2
      rw [next_leftLike chunk found h hfin] at hempty ⊢
      by_cases hres : (nextInnerJoin cfg fuel chunk ss found).result = []
      · rw [nextLeftJoin_of_none chunk found hres]
      · rw [nextLeftJoin_of_matches chunk found hres] at hempty
        exact absurd hempty hres
    rw [drain_finished _ _ hdone]
    simp
  · rfl

/-- A call of `NextLeftJoin` delivers matches, or all unmatched rows when no match is left; the
calls that follow deliver the rest. -/
theorem next_drain_leftLike (h : isLeftLike cfg.joinType) (hfuel : k ≤ fuel) (hcalls : k ≤ calls)
    (hlive : ss.Live k) (hfin : ss.finished = false) :
    ∃ done, (ss.remaining cfg chunk.keys).Perm done
      ∧ (drain cfg fuel chunk calls (next cfg fuel chunk ss found).ss
          (next cfg fuel chunk ss found).found).1 = marked cfg found done
      ∧ ((next cfg fuel chunk ss found).result
          ++ (drain cfg fuel chunk calls (next cfg fuel chunk ss found).ss
            (next cfg fuel chunk ss found).found).2).Perm
        (emit chunk.payload done ++ unmatchedRows chunk ss.foundMatch done) := by
  have hinner : cfg.joinType ≠ .inner := by
    intro hc
    simp [hc,isLeftLike] at h
  induction calls generalizing ss k found with
  | zero =>
    obtain rfl : k = 0 := by omega
    have hnil := hlive.selVector_eq_nil
    refine ⟨[],by simp [remaining_of_selVector_eq_nil hnil],?_⟩
    simp [next_leftLike chunk found h hfin,nextLeftJoin,nextInnerJoin,hnil,drain,emit,leftRows,
      unmatchedRows]
  | succ calls ih =>
    obtain ⟨done,hstep⟩ := nextInnerJoin_spec chunk found cfg hfuel hlive
    rw [next_leftLike chunk found h hfin]
    have hresult := hstep.result
    rw [emitted_leftLike h] at hresult
    by_cases hnone : done = []
    · -- nothing matched any more: the unmatched rows come out and the scan is finished
      subst hnone
      have hempty : (nextInnerJoin cfg fuel chunk ss found).result = [] := by
        simp [hresult,emit]
      have hrem := hstep.remaining
      rw [remaining_of_selVector_eq_nil (hstep.exhausted rfl)] at hrem
      refine ⟨[],hrem,?_⟩
      rw [nextLeftJoin_of_none chunk found hempty,drain_finished _ _ rfl]
      refine ⟨by simpa using hstep.found,?_⟩
      simp [emit,leftRows,unmatchedRows,hstep.flags hinner]
    · have hne : (nextInnerJoin cfg fuel chunk ss found).result ≠ [] := by
        simpa [hresult,emit] using hnone
      rw [nextLeftJoin_of_matches chunk found hne,
        drain_succ_leftLike _ _ h (hstep.finished.trans hfin)]
      obtain ⟨more,hrem,hfound,hout⟩ := ih (k := k - 1)
        (nextInnerJoin cfg fuel chunk ss found).found (by omega) (by omega) hstep.live
        (hstep.finished.trans hfin)
      refine ⟨done ++ more,hstep.remaining.trans (hrem.append_left done),?_,?_⟩
      · rw [hfound,hstep.found,marked_append]
      have hrows : unmatchedRows chunk (nextInnerJoin cfg fuel chunk ss found).ss.foundMatch more
          = (unmatchedRows chunk ss.foundMatch (done ++ more) : List (ResultRow L P)) := by
        simp only [unmatchedRows,hstep.flags hinner,any_append,Bool.or_assoc]
      rw [hrows] at hout
      have hall := hout.append_left (emit chunk.payload done)
      simpa [hresult,emit] using hall

end ScanStructure

end PredTrans.Join
