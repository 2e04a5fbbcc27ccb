import PredTrans.Window.SegmentTreeExact

/-! A frame with EXCLUDE is aggregated in parts. The part to the left of what is excluded ends there
and the part to the right begins there, also if that lies outside the frame. -/

namespace PredTrans.Window

variable (mode : WindowExcludeMode) (frame peer : FrameBounds) (curRow : Nat)

/-- The body of the loop of `EvaluateSubFrames`. -/
def subFrames : List FrameBounds :=
  if mode = .noOther then [frame]
  else [⟨frame.start, max frame.start (excludeBegin mode peer curRow)⟩] ++ tiesPart mode curRow ++
    [⟨min (excludeEnd mode peer curRow) frame.end_, frame.end_⟩]

def FrameBounds.Holds (f : FrameBounds) (j : Nat) : Prop := f.start ≤ j ∧ j < f.end_

def Excluded (j : Nat) : WindowExcludeMode → Prop
  | .noOther => False
  | .currentRow => j = curRow
  | .group => peer.Holds j
  | .ties => peer.Holds j ∧ j ≠ curRow

/-- The parts have exactly the rows of the frame that are not excluded. -/
def ExactRows (parts : List FrameBounds) : Prop :=
  ∀ j, (∃ f ∈ parts, f.Holds j) ↔ frame.Holds j ∧ ¬ Excluded peer curRow j mode

/-- The tree aggregates the rows of `parts` for the current row, whatever the aggregate, the filter
and the other rows of the call are. -/
def TreeAggregates (parts : List FrameBounds) : Prop :=
  ∀ (S : Type) (agg : Aggregate S) (rows : WindowRows) (frames peers : Nat → FrameBounds)
    (count rowIdx rid : Nat), agg.Lawful →
    (∀ i < count, (frames i).end_ ≤ rows.size ∧ (peers i).Holds (rowIdx + i) ∧
      rowIdx + i < rows.size) →
    rid < count → frames rid = frame → peers rid = peer → rowIdx + rid = curRow →
    evaluate agg rows mode frames peers count rowIdx rid = agg.value (rows.ofParts parts)

/-- The frame touches what is excluded; with TIES it holds the current row. -/
def Touches : WindowExcludeMode → Prop
  | .noOther => True
  | .currentRow => frame.start ≤ curRow + 1 ∧ curRow ≤ frame.end_
  | .group => frame.start ≤ peer.end_ ∧ peer.start ≤ frame.end_
  | .ties => frame.Holds curRow

/-- What is excluded reaches over a frame that ends in front of its start. -/
def Bridges : WindowExcludeMode → Prop
  | .noOther => True
  | .currentRow => curRow ≤ frame.start ∧ frame.end_ ≤ curRow + 1
  | .group => peer.start ≤ frame.start ∧ frame.end_ ≤ peer.end_
  | .ties => False

variable {mode frame peer curRow}

theorem treeAggregates_treeFrames :
    TreeAggregates mode frame peer curRow (treeFrames mode frame peer curRow) := by
  rintro S agg rows frames peers count rowIdx rid law hrows hrid rfl rfl rfl
  refine evaluate_parts law rows mode frames peers count rowIdx (fun i hi => (hrows i hi).1)
    (fun _ i hi => ?_) hrid
  obtain ⟨-,hpeer,hsize⟩ := hrows i hi
  simp only [excludeBegin,FrameBounds.Holds] at hpeer ⊢
  split <;> omega

theorem ordered_exact_iff (hframe : frame.start ≤ frame.end_) (hpeer : peer.Holds curRow) :
    ((subFrames mode frame peer curRow).Pairwise (fun f g => f.end_ ≤ g.start) ∧
      ExactRows mode frame peer curRow (subFrames mode frame peer curRow) ∧
      ExactRows mode frame peer curRow (treeFrames mode frame peer curRow)) ↔
    Touches frame peer curRow mode := by
  obtain ⟨hlo,hhi⟩ := hpeer
  cases mode with
  | noOther => simp [subFrames,treeFrames,ExactRows,Excluded,Touches]
  | currentRow | group | ties =>
    simp only [subFrames,treeFrames,excludeBegin,excludeEnd,tiesPart,ExactRows,Excluded,Touches,
      FrameBounds.Holds]
    constructor
    · rintro ⟨hordered,-⟩
      simp at hordered
      omega
    · intro htouch
      refine ⟨by simp; omega,fun j => ?_,fun j => ?_⟩ <;> simp <;> omega

/-- The parts of a frame that ends in front of its start cannot be in order. -/
theorem not_ordered (hframe : frame.end_ < frame.start) (hmode : mode ≠ .noOther) :
    ¬ (subFrames mode frame peer curRow).Pairwise (fun f g => f.end_ ≤ g.start) := by
  intro hordered
  simp only [subFrames,hmode,if_false,List.cons_append,
    List.pairwise_cons] at hordered
  have hends := hordered.1 _ (List.mem_append_right _ (List.mem_singleton_self _))
  simp only at hends
  omega

theorem reversed_exact_iff (hframe : frame.end_ < frame.start) (hpeer : peer.Holds curRow) :
    (ExactRows mode frame peer curRow (subFrames mode frame peer curRow) ∧
      ExactRows mode frame peer curRow (treeFrames mode frame peer curRow)) ↔
    Bridges frame peer curRow mode := by
  obtain ⟨hlo,hhi⟩ := hpeer
  cases mode with
  | noOther => simp [subFrames,treeFrames,ExactRows,Excluded,Bridges]
  | ties =>
    simp only [Bridges,iff_false]
    rintro ⟨hexact,-⟩
    have hrow := (hexact curRow).mp ⟨⟨curRow,curRow + 1⟩,by simp [subFrames,tiesPart],by
      simp [FrameBounds.Holds]⟩
    simp only [FrameBounds.Holds] at hrow
    omega
  | currentRow | group =>
    simp only [subFrames,treeFrames,excludeBegin,excludeEnd,tiesPart,ExactRows,Excluded,Bridges,
      FrameBounds.Holds]
    constructor
    · rintro ⟨-,hexact⟩
      have hfirst := hexact frame.start
      have hlast := hexact (frame.end_ - 1)
      simp at hfirst hlast
      omega
    · intro hbridge
      refine ⟨fun j => ?_,fun j => ?_⟩ <;> simp <;> omega

variable (mode frame peer curRow)

/-- ROWS BETWEEN 3 FOLLOWING AND 1 FOLLOWING at row 0: the frame is empty and gets the next row. -/
example : subFrames .currentRow ⟨3, 2⟩ ⟨0, 1⟩ 0 = [⟨3, 3⟩, ⟨1, 2⟩] := rfl

end PredTrans.Window
