import PredTrans.Window.SegmentPieces

/-! What `WindowSegmentTree::Evaluate` aggregates: the passes over the upper levels and over the
leaves together add the rows of every frame to its state. -/

namespace PredTrans.Window

open List
open Function (update)

variable {S : Type} {agg : Aggregate S}

/-- The next row is done. -/
theorem update_done (f g : Nat → S) (done : Nat) :
    update (fun rid => if rid < done then f rid else g rid) done (f done) =
      fun rid => if rid < done + 1 then f rid else g rid := by
  funext rid
  rw [Function.update_apply]
  rcases Nat.lt_trichotomy rid done with hlt | rfl | hgt
  · simp [hlt,hlt.ne,Nat.lt_succ_of_lt hlt]
  · simp
  · simp [hgt.ne',show ¬ rid < done by omega,show ¬ rid < done + 1 by omega]

/-! ### The upper levels of all rows -/

section Upper

variable {tree : List (List S)} {rows : WindowRows} {call : PartCall} {start : Nat → S}

/-- The last flush leaves the states of all rows. -/
theorem flushStates_done {part : PartState S} {combining : Bool} {f : Nat → S} {count rid : Nat}
    (honly : part.Only combining)
    (hsettled : part.settled agg tree = fun rid => if rid < count then f rid else start rid)
    (hrid : rid < count) : (flushStates agg tree combining part).states rid = f rid := by
  rw [flushStates_states agg tree honly,hsettled]
  exact if_pos hrid

/-- The rows of a frame below the nodes inside it. -/
def WindowRows.inner (rows : WindowRows) (first last : Nat) : List Nat :=
  if last ≤ first ∨ first / treeFanout = last / treeFanout then []
  else rows.below 1 (parentOf first) (last / treeFanout)

/-- After `done` rows of `EvaluateUpperLevels`, with `start` the states before it. -/
structure UpperDone (agg : Aggregate S) (tree : List (List S)) (rows : WindowRows) (call : PartCall)
    (start : Nat → S) (done : Nat) (state : Option PrevState × PartState S) : Prop where
  only : state.2.Only true
  settled : state.2.settled agg tree = fun rid =>
    if rid < done then (rows.inner (call.first rid) (call.last rid)).foldl agg.update (start rid)
    else start rid
  shared : ∀ prev, state.1 = some prev → agg.orderInsensitive = true ∧ prev.source < done ∧
    state.2.settled agg tree prev.source = agg.value (rows.below 1 prev.first prev.last)

namespace UpperDone

variable {done : Nat} {state : Option PrevState × PartState S}

/-- The entries of the next row, whatever they are, if they add its inner rows. -/
theorem push (h : UpperDone agg tree rows call start done state) (entries : List Pending)
    (prev : Option PrevState) (honly : ∀ entry ∈ entries, entry.combining = true)
    (hentries : entries.foldl (applyPending agg tree) (state.2.settled agg tree) =
      update (state.2.settled agg tree) done
        ((rows.inner (call.first done) (call.last done)).foldl agg.update (start done)))
    (hprev : prev = state.1 ∨ agg.orderInsensitive = true ∧ start done = agg.initial ∧
      ∃ first last, prev = some ⟨done, first, last⟩ ∧
        rows.inner (call.first done) (call.last done) = rows.below 1 first last) :
    UpperDone agg tree rows call start (done + 1)
      (prev, entries.foldl (pushPending agg tree true) state.2) := by
  obtain ⟨hpushed,hsettled⟩ := foldl_pushPending agg tree honly h.only
  rw [hentries] at hsettled
  refine ⟨hpushed,?_,?_⟩
  · rw [hsettled,h.settled]
    exact update_done ..
  · intro other hother
    simp only [hsettled]
    rcases hprev with rfl | ⟨hfree,hstart,first,last,rfl,hinner⟩
    · obtain ⟨hfree,hlt,hvalue⟩ := h.shared other hother
      exact ⟨hfree,Nat.lt_succ_of_lt hlt,by rw [Function.update_of_ne hlt.ne,hvalue]⟩
    · obtain rfl := Option.some.inj hother
      refine ⟨hfree,Nat.lt_succ_self _,?_⟩
      rw [Function.update_self,hinner,hstart]
      rfl

/-- The next row has no inner rows. -/
theorem skip (h : UpperDone agg tree rows call start done state)
    (hinner : rows.inner (call.first done) (call.last done) = []) :
    UpperDone agg tree rows call start (done + 1) state := by
  refine h.push [] state.1 (by simp) ?_ (Or.inl rfl)
  rw [hinner,h.settled]
  funext rid
  rcases eq_or_ne rid done with rfl | hne
  · simp
  · simp [hne]

/-- The nodes inside a frame, if they are not shared. -/
theorem climbed (law : agg.Lawful) (built : Built agg rows tree) (hend : call.last done ≤ rows.size)
    (hlt : ¬ call.last done ≤ call.first done)
    (hparents : call.first done / treeFanout ≠ call.last done / treeFanout)
    (hshared : sharedWith 1 (parentOf (call.first done))
      (call.last done / treeFanout) state.1 = none) :
    Adds agg tree true done (climb agg done (tree.length + 1) 1 (parentOf (call.first done))
      (call.last done / treeFanout) state.1 []).2
      (rows.below 1 (parentOf (call.first done)) (call.last done / treeFanout) ++ []) := by
  obtain ⟨-,hle,hgroup⟩ := parentOf_bounds (not_le.mp hlt).le hparents
  have hsize := le_trans hend built.height
  refine climb_adds law built (tree.length + 1) hle ?_ ?_ hshared Adds.nil
  · rw [pow_succ]
    simp only [treeFanout] at hsize ⊢
    omega
  · rw [Nat.zero_add,pow_one]
    exact le_trans hgroup hend

theorem step (law : agg.Lawful) (built : Built agg rows tree) (hend : call.last done ≤ rows.size)
    (hstart : agg.orderInsensitive = true → start done = agg.initial)
    (h : UpperDone agg tree rows call start done state) :
    UpperDone agg tree rows call start (done + 1) (upperStep agg tree call state done) := by
  have hdone : state.2.settled agg tree done = start done := by rw [h.settled]; simp
  simp only [upperStep,climb_leaves]
  split
  · rename_i hempty
    exact h.skip (by simp [WindowRows.inner,hempty])
  · rename_i hlt
    split
    · rename_i hparents
      exact h.skip (by simp [WindowRows.inner,hparents])
    · rename_i hparents
      have hinner : rows.inner (call.first done) (call.last done) =
          rows.below 1 (parentOf (call.first done)) (call.last done / treeFanout) := by
        simp [WindowRows.inner,hlt,hparents]
      cases hshared : sharedWith 1 (parentOf (call.first done)) (call.last done / treeFanout)
          state.1 with
      | some source =>
        obtain ⟨-,-,hvalue⟩ := h.shared _ (sharedWith_eq_some hshared)
        rw [climb_shared hshared]
        refine h.push _ _ (by simp [Pending.combining]) ?_ (Or.inl rfl)
        simp only [foldl_cons,foldl_nil,applyPending]
        rw [hvalue,law.combine_value,hdone,hinner]
      | none =>
        have hadds := climbed law built hend hlt hparents hshared
        refine h.push _ _ hadds.only (by rw [hadds.apply,hdone,hinner,append_nil]) ?_
        rw [climb_prev_one hshared]
        cases hfree : agg.orderInsensitive with
        | false => exact Or.inl (by simp)
        | true => exact Or.inr ⟨rfl,hstart hfree,_,_,by simp,hinner⟩

theorem run (law : agg.Lawful) (built : Built agg rows tree)
    (hstart : agg.orderInsensitive = true → ∀ rid, start rid = agg.initial)
    (hends : ∀ rid < call.count, call.last rid ≤ rows.size) :
    ∀ count ≤ call.count, UpperDone agg tree rows call start count
      ((range count).foldl (upperStep agg tree call) (none, ⟨start, []⟩))
  | 0, _ => ⟨by simp [PartState.Only],by simp [PartState.settled],by simp⟩
  | count + 1, hcount => by
    rw [range_succ,foldl_append]
    exact (run law built hstart hends count (by omega)).step law built (hends count (by omega))
      fun hfree => hstart hfree count

end UpperDone

theorem evaluateUpperLevels_states (start : Nat → S) (law : agg.Lawful)
    (built : Built agg rows tree)
    (hstart : agg.orderInsensitive = true → ∀ rid, start rid = agg.initial)
    (hends : ∀ rid < call.count, call.last rid ≤ rows.size) :
    ∃ states, evaluateUpperLevels agg tree call ⟨start, []⟩ = ⟨states, []⟩ ∧
      ∀ rid < call.count, states rid =
        (rows.inner (call.first rid) (call.last rid)).foldl agg.update (start rid) := by
  have hrun := UpperDone.run law built hstart hends call.count le_rfl
  exact ⟨_,rfl,fun rid hrid => flushStates_done hrun.only hrun.settled hrid⟩

end Upper

/-! ### The leaves of all rows -/

section Leaves

variable {tree : List (List S)} {rows : WindowRows} {call : PartCall} {start : Nat → S}

/-- The rows in front of the nodes inside a frame, or all if there are none. -/
def WindowRows.leftEnd (rows : WindowRows) (first last : Nat) : List Nat :=
  if last ≤ first ∨ first / treeFanout = last / treeFanout then rows.kept first last
  else rows.kept first (parentOf first * treeFanout)

def WindowRows.rightEnd (rows : WindowRows) (first last : Nat) : List Nat :=
  if last ≤ first ∨ first / treeFanout = last / treeFanout then []
  else rows.kept (last / treeFanout * treeFanout) last

theorem frame_split (first last : Nat) :
    rows.leftEnd first last ++ (rows.inner first last ++ rows.rightEnd first last) =
      rows.kept first last := by
  by_cases h : last ≤ first ∨ first / treeFanout = last / treeFanout
  · simp [WindowRows.leftEnd,WindowRows.inner,WindowRows.rightEnd,h]
  · simp only [WindowRows.leftEnd,WindowRows.inner,WindowRows.rightEnd,h,if_false]
    rw [not_or,not_le] at h
    have hsplit := below_split rows 0 h.1.le h.2
    simpa [WindowRows.below] using hsplit

/-- The current row, which the right part begins with if only its ties are excluded. -/
def PartCall.current (call : PartCall) (rows : WindowRows) (rid : Nat) : List Nat :=
  if call.framePart = .right ∧ call.mode = .ties then
    rows.kept (call.rowIdx + rid) (call.rowIdx + rid + 1)
  else []

/-- The leaves a pass adds to a row. -/
def PartCall.leaves (call : PartCall) (rows : WindowRows) (leafPart : FramePart) (rid : Nat) :
    List Nat :=
  (if leafPart ≠ .right then call.current rows rid ++ rows.leftEnd (call.first rid) (call.last rid)
    else []) ++
  (if leafPart ≠ .left then rows.rightEnd (call.first rid) (call.last rid) else [])

theorem leafEntries_self (rows : WindowRows) (target first : Nat) :
    leafEntries rows target first first = [] := by
  simp [leafEntries]

theorem raggedEntries_adds (agg : Aggregate S) (tree : List (List S)) (rows : WindowRows)
    (target first last : Nat) (leafPart : FramePart) :
    Adds agg tree false target (raggedEntries rows target first last leafPart)
      ((if leafPart ≠ .right then rows.leftEnd first last else []) ++
        (if leafPart ≠ .left then rows.rightEnd first last else [])) := by
  have hleaves : ∀ first last, Adds agg tree false target (leafEntries rows target first last)
    (rows.kept first last) := Adds.leaves rows
  simp only [raggedEntries,WindowRows.leftEnd,WindowRows.rightEnd]
  split
  · rename_i hempty
    simpa [hempty,kept_of_le hempty] using Adds.nil
  · rename_i hlt
    split
    · rename_i hparents
      simpa [hparents] using (hleaves first last).ite (leafPart ≠ .right)
    · rename_i hparents
      simp only [hlt,hparents,or_self,if_false,and_comm (a := first ≠ _),
        and_comm (a := last ≠ _),ite_and]
      rw [leftGroup_eq _ (leafEntries_self rows target),
        rightGroup_eq _ (leafEntries_self rows target)]
      exact ((hleaves _ _).ite _).append ((hleaves _ _).ite _)

theorem leavesOf_adds (agg : Aggregate S) (tree : List (List S)) (rows : WindowRows)
    (call : PartCall) (leafPart : FramePart) (rid : Nat) :
    Adds agg tree false rid (leavesOf rows call leafPart rid) (call.leaves rows leafPart rid) := by
  have hragged := raggedEntries_adds agg tree rows rid (call.first rid) (call.last rid) leafPart
  have hcurrent : Adds agg tree false rid _ _ := Adds.leaves rows (call.rowIdx + rid)
    (call.rowIdx + rid + 1)
  have hadds := (hcurrent.ite
    (leafPart ≠ .right ∧ call.framePart = .right ∧ call.mode = .ties)).append hragged
  by_cases hpart : leafPart = .right
  · simpa [leavesOf,PartCall.leaves,hpart] using hadds
  · simpa [leavesOf,PartCall.leaves,PartCall.current,hpart] using hadds

/-- Rows whose entries add to their own states, one after the other. -/
theorem foldl_adds {combining : Bool} {entries : Nat → List Pending} {added : Nat → List Nat}
    (hadds : ∀ rid, Adds agg tree combining rid (entries rid) (added rid)) (start : Nat → S)
    (count : Nat) :
    let part := (range count).foldl
      (fun part rid => (entries rid).foldl (pushPending agg tree combining) part) ⟨start, []⟩
    part.Only combining ∧ part.settled agg tree = fun rid =>
      if rid < count then (added rid).foldl agg.update (start rid) else start rid := by
  induction count with
  | zero => exact ⟨by simp [PartState.Only],by simp [PartState.settled]⟩
  | succ count ih =>
    obtain ⟨honly,hsettled⟩ := foldl_pushPending agg tree (hadds count).only ih.1
    simp only [range_succ,foldl_append,foldl_cons,foldl_nil]
    refine ⟨honly,?_⟩
    rw [hsettled,(hadds count).apply,ih.2]
    simpa using update_done (fun rid => (added rid).foldl agg.update (start rid)) start count

theorem evaluateLeaves_states (agg : Aggregate S) (tree : List (List S)) (rows : WindowRows)
    (call : PartCall) (start : Nat → S) (leafPart : FramePart) :
    ∃ states, evaluateLeaves agg tree rows call leafPart ⟨start, []⟩ = ⟨states, []⟩ ∧
      ∀ rid < call.count, states rid =
        (call.leaves rows leafPart rid).foldl agg.update (start rid) := by
  obtain ⟨honly,hsettled⟩ := foldl_adds (leavesOf_adds agg tree rows call leafPart) start call.count
  exact ⟨_,rfl,fun rid hrid => flushStates_done honly hsettled hrid⟩

end Leaves

/-! ### Frames -/

/-- Where the rows that are excluded begin. -/
def excludeBegin (mode : WindowExcludeMode) (peer : FrameBounds) (curRow : Nat) : Nat :=
  if mode = .currentRow then curRow else peer.start

def excludeEnd (mode : WindowExcludeMode) (peer : FrameBounds) (curRow : Nat) : Nat :=
  if mode = .currentRow then curRow + 1 else peer.end_

/-- With EXCLUDE TIES the current row is a part of its own. -/
def tiesPart (mode : WindowExcludeMode) (curRow : Nat) : List FrameBounds :=
  if mode = .ties then [⟨curRow, curRow + 1⟩] else []

section Frames

variable {rows : WindowRows}

theorem evaluatePart_states (law : agg.Lawful) {tree : List (List S)} (built : Built agg rows tree)
    (call : PartCall) (hends : ∀ rid < call.count, call.last rid ≤ rows.size) {rid : Nat}
    (hrid : rid < call.count) :
    (evaluatePart agg tree rows call).states rid =
      agg.value (call.current rows rid ++ rows.kept (call.first rid) (call.last rid)) := by
  simp only [evaluatePart,Aggregate.value]
  cases hfree : agg.orderInsensitive with
  | true =>
    obtain ⟨upper,hupper,hinner⟩ := evaluateUpperLevels_states (fun _ => agg.initial) law built
      (fun _ _ => rfl) hends
    obtain ⟨states,hleaves,hadded⟩ := evaluateLeaves_states agg tree rows call upper .full
    simp only [if_true,hupper,hleaves]
    rw [hadded rid hrid,hinner rid hrid,← foldl_append]
    refine law.foldl_perm hfree ?_ _
    rw [← frame_split]
    simp only [PartCall.leaves,ne_eq,reduceCtorEq,not_false_eq_true,if_true,append_assoc]
    exact (perm_append_comm_assoc ..).trans (Perm.append_left _ (perm_append_comm_assoc ..))
  | false =>
    obtain ⟨left,hleft,hfirst⟩ := evaluateLeaves_states agg tree rows call
      (fun _ => agg.initial) .left
    obtain ⟨upper,hupper,hinner⟩ := evaluateUpperLevels_states left law built
      (fun h => by simp [hfree] at h) hends
    obtain ⟨states,hleaves,hadded⟩ := evaluateLeaves_states agg tree rows call upper .right
    simp only [Bool.false_eq_true,if_false,hleft,hupper,hleaves]
    rw [hadded rid hrid,hinner rid hrid,hfirst rid hrid,← foldl_append,← foldl_append,← frame_split]
    simp [PartCall.leaves]

/-- The parts of a frame with EXCLUDE that the tree aggregates one after the other; the part to the
left of what is excluded ends there and the part to the right begins there. -/
def treeFrames (mode : WindowExcludeMode) (frame peer : FrameBounds) (curRow : Nat) :
    List FrameBounds :=
  if mode = .noOther then [frame]
  else [⟨frame.start, excludeBegin mode peer curRow⟩] ++ tiesPart mode curRow ++
    [⟨excludeEnd mode peer curRow, frame.end_⟩]

/-- The rows of the parts, one part after the other. -/
def WindowRows.ofParts (rows : WindowRows) (parts : List FrameBounds) : List Nat :=
  parts.flatMap fun part => rows.kept part.start part.end_

theorem evaluate_parts (law : agg.Lawful) (rows : WindowRows) (mode : WindowExcludeMode)
    (frames peers : Nat → FrameBounds) (count rowIdx : Nat)
    (hframes : ∀ rid < count, (frames rid).end_ ≤ rows.size)
    (hpeers : mode ≠ .noOther →
      ∀ rid < count, excludeBegin mode (peers rid) (rowIdx + rid) ≤ rows.size)
    {rid : Nat} (hrid : rid < count) :
    evaluate agg rows mode frames peers count rowIdx rid =
      agg.value (rows.ofParts (treeFrames mode (frames rid) (peers rid) (rowIdx + rid))) := by
  have hpart := fun framePart begins ends => evaluatePart_states law (constructTree_built law rows)
    ⟨mode,framePart,begins,ends,count,rowIdx⟩
  by_cases hmode : mode = .noOther
  · subst hmode
    simp only [evaluate,ne_eq,not_true_eq_false,if_false]
    rw [hpart _ _ _ (by simpa [PartCall.last] using hframes) hrid]
    simp [PartCall.current,PartCall.first,PartCall.last,treeFrames,WindowRows.ofParts]
  · simp only [evaluate,ne_eq,hmode,not_false_eq_true,if_true]
    rw [hpart .left _ _ (by simpa [PartCall.last,excludeBegin] using hpeers hmode) hrid,
      hpart .right _ _ (by simpa [PartCall.last] using hframes) hrid,law.combine_value]
    simp only [Aggregate.value,← foldl_append]
    congr 1
    cases mode <;> simp [PartCall.current,PartCall.first,PartCall.last,treeFrames,excludeBegin,
      excludeEnd,tiesPart,WindowRows.ofParts] at hmode ⊢

/-- The aggregate that keeps the rows it was given. -/
def recorded : Aggregate (List Nat) := ⟨[], fun s row => s ++ [row], (· ++ ·), false⟩

theorem recorded_lawful : recorded.Lawful where
  assoc := append_assoc
  combine_initial := append_nil
  update_eq s row := by simp [recorded]
  comm h := by simp [recorded] at h

/-- A sum, for which the order does not matter. -/
def summed : Aggregate Nat := ⟨0, (· + ·), (· + ·), true⟩

theorem summed_lawful : summed.Lawful where
  assoc := Nat.add_assoc
  combine_initial := Nat.add_zero
  update_eq s row := by simp [summed]
  comm _ := Nat.add_comm

end Frames

end PredTrans.Window
