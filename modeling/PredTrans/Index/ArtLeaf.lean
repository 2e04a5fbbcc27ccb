import PredTrans.Index.ArtContents

/-!
What `Leaf::Insert` and `Leaf::Remove` do to the row ids of a leaf, whether they are inlined or
stand in a chain of segments.
-/

namespace PredTrans.Index
open List

/-- The effect of `Leaf::Remove` on the row ids of one key. A row id among three or more gives
its place to the last one, which is given up also when the row id is not there. -/
def removeRow (rowIds : List RowId) (rowId : RowId) : List RowId :=
  match rowIds with
  | [] => []
  | [first] => if first = rowId then [] else [first]
  | [first, second] =>
    if first = rowId then [second] else if second = rowId then [first] else [first, second]
  | _ => rowIds.dropLast.replace rowId (rowIds.getLastD 0)

theorem removeRow_of_three_le (h : 3 ≤ rowIds.length) (rowId : RowId) :
    removeRow rowIds rowId = rowIds.dropLast.replace rowId (rowIds.getLastD 0) := by
  match rowIds, h with
  | _ :: _ :: _ :: _, _ => rfl

theorem removeRow_append (h : 2 ≤ front.length) (last rowId : RowId) :
    removeRow (front ++ [last]) rowId = front.replace rowId last := by
  rw [removeRow_of_three_le (by simp; omega)]
  simp

theorem replace_cons_ne (b : RowId) (h : c ≠ a) : (c :: l).replace a b = c :: l.replace a b := by
  simp [List.replace,beq_false_of_ne h.symm]

theorem replace_self (l : List RowId) (a : RowId) : l.replace a a = l := by
  induction l with
  | nil => rfl
  | cons b l ih =>
    by_cases hb : b = a
    · simp [hb]
    · rw [replace_cons_ne a hb,ih]

theorem replace_perm {l : List RowId} (b : RowId) (h : a ∈ l) :
    (l.replace a b).Perm (b :: l.erase a) := by
  induction l with
  | nil => simp at h
  | cons c l ih =>
    by_cases hc : c = a
    · simp [hc]
    · have hmem : a ∈ l := by simpa [Ne.symm hc] using h
      rw [replace_cons_ne b hc,erase_cons_tail (by simpa using hc)]
      exact ((ih hmem).cons c).trans (List.Perm.swap b c _)

theorem removeRow_perm {rowIds : List RowId} (h : rowId ∈ rowIds) :
    (removeRow rowIds rowId).Perm (rowIds.erase rowId) := by
  match rowIds with
  | [] => simp at h
  | [first] =>
    obtain rfl := mem_singleton.mp h
    simp [removeRow]
  | [first,second] =>
    by_cases hf : first = rowId
    · simp [removeRow,hf]
    · have hs : second = rowId := by simpa [Ne.symm hf,eq_comm] using h
      simp [removeRow,hf,hs]
  | a :: b :: c :: rest =>
    obtain ⟨front,last,heq⟩ : ∃ front last, a :: b :: c :: rest = front ++ [last] :=
      ⟨_,_,(dropLast_append_getLast (cons_ne_nil a _)).symm⟩
    have hlen : 2 ≤ front.length := by
      have := congrArg List.length heq
      simp at this
      omega
    rw [heq] at h ⊢
    rw [removeRow_append hlen]
    by_cases hmem : rowId ∈ front
    · rw [erase_append_left _ hmem]
      exact (replace_perm last hmem).trans (perm_append_singleton last _).symm
    · have hlast : rowId = last := by simpa [hmem] using h
      rw [replace_of_not_mem hmem,erase_append_right _ hmem,hlast]
      simp

namespace Node

theorem flatten_leafAppend (segments : List (List RowId)) (rowId : RowId) :
    (leafAppend segments rowId).flatten = segments.flatten ++ [rowId] := by
  induction segments, rowId using leafAppend.induct with
  | case1 rowId => simp [leafAppend]
  | case2 rowId tail h | case3 rowId tail h => simp [leafAppend,h]
  | case4 rowId segment next rest ih => simp [leafAppend,ih]

theorem leafAppend_append (full : List (List RowId)) (tail : List RowId) (rowId : RowId) :
    leafAppend (full ++ [tail]) rowId =
      full ++ if tail.length = leafSize then [tail, [rowId]] else [tail ++ [rowId]] := by
  induction full with
  | nil => rfl
  | cons segment full ih =>
    obtain ⟨next,rest,hcons⟩ : ∃ next rest, full ++ [tail] = next :: rest :=
      exists_cons_of_ne_nil (by simp)
    rw [cons_append,hcons,leafAppend,← hcons,ih,cons_append]

theorem segmentsWf_leafAppend (h : SegmentsWf segments) (rowId : RowId) :
    SegmentsWf (leafAppend segments rowId) := by
  obtain ⟨full,tail,rfl,hfull,hpos,hle,htwo⟩ := h.exists_tail
  rw [leafAppend_append]
  split
  case isTrue hlen =>
    refine ⟨full.length + 1,1,?_,by simp,by simp [leafSize],by simp⟩
    simp [hfull,hlen,replicate_succ']
  case isFalse hlen =>
    refine ⟨full.length,tail.length + 1,by simp [hfull],by omega,by omega,by omega⟩

theorem segmentsWf_pair (first second : RowId) : SegmentsWf [[first, second]] :=
  ⟨0,2,rfl,by simp,by simp [leafSize],by simp⟩

theorem rows_of_isLeaf {node : Node} (h : node.isLeaf = true) :
    node.rows = Library.WordMap.single [] node.rowIds := by
  cases node with
  | leafInlined rowId | leaf segments => rfl
  | empty | prefixed | inner => simp [isLeaf] at h

theorem rowIds_ne_nil {node : Node} (hleaf : node.isLeaf = true) (hwf : node.Wf) :
    node.rowIds ≠ [] := by
  cases node with
  | leafInlined rowId => simp [rowIds]
  | leaf segments => exact ne_nil_of_length_pos (SegmentsWf.length_pos hwf)
  | empty | prefixed | inner => simp [isLeaf] at hleaf

theorem leafInsert_spec {node : Node} (hleaf : node.isLeaf = true) (hwf : node.Wf) (rowId : RowId) :
    (node.leafInsert rowId).isLeaf = true ∧ (node.leafInsert rowId).Wf ∧
      (node.leafInsert rowId).rowIds = node.rowIds ++ [rowId] := by
  cases node with
  | leafInlined first => exact ⟨rfl,segmentsWf_pair first rowId,
      by simp [leafInsert,leafAppend,leafSize,rowIds]⟩
  | leaf segments =>
    exact ⟨rfl,segmentsWf_leafAppend hwf rowId,flatten_leafAppend segments rowId⟩
  | empty | prefixed | inner => simp [isLeaf] at hleaf

theorem flatten_overwrite (segments : List (List RowId)) (rowId last : RowId) :
    (overwrite segments rowId last).flatten = segments.flatten.replace rowId last := by
  induction segments with
  | nil => rfl
  | cons segment rest ih =>
    unfold overwrite
    split
    case isTrue hmem => simp [replace_append,hmem]
    case isFalse hmem => simp [replace_append,hmem,ih]

theorem length_overwrite (segments : List (List RowId)) (rowId last : RowId) :
    (overwrite segments rowId last).map List.length = segments.map List.length := by
  induction segments with
  | nil => rfl
  | cons segment rest ih =>
    unfold overwrite
    split
    · simp
    · simp [ih]

theorem segmentsWf_overwrite (h : SegmentsWf segments) (rowId last : RowId) :
    SegmentsWf (overwrite segments rowId last) := by
  obtain ⟨full,tail,hlen,hrest⟩ := h
  exact ⟨full,tail,by rw [length_overwrite,hlen],hrest⟩

/-- The chain without its head segment of two: the branch that gives up the last slot. -/
theorem segmentsRemove_of_ne (h : ∀ first second rest, segments ≠ [first, second] :: rest)
    (rowId : RowId) :
    segmentsRemove segments rowId =
      if (segments.getLastD []).length = 1 then
        if (segments.getLastD []).getLastD 0 = rowId then leaf (freeTail segments)
        else leaf (overwrite (freeTail segments) rowId ((segments.getLastD []).getLastD 0))
      else leaf (overwrite (segments.dropLast ++ [(segments.getLastD []).dropLast]) rowId
        ((segments.getLastD []).getLastD 0)) := by
  unfold segmentsRemove
  split
  · exact absurd rfl (h _ _ _)
  · rfl

theorem freeTail_append (h : full ≠ []) (tail : List RowId) : freeTail (full ++ [tail]) = full := by
  match full, h with
  | [segment], _ => rfl
  | segment :: next :: rest, _ =>
    change (segment :: next :: rest ++ [tail]).dropLast = _
    exact dropLast_concat

/-- The branch that gives up the last slot, on a chain of three or more row ids. -/
theorem segmentsRemove_long (hwf : SegmentsWf (full ++ [front ++ [last]]))
    (hlong : 2 ≤ (full.flatten ++ front).length) (rowId : RowId) :
    (segmentsRemove (full ++ [front ++ [last]]) rowId).isLeaf = true ∧
      (segmentsRemove (full ++ [front ++ [last]]) rowId).Wf ∧
      (segmentsRemove (full ++ [front ++ [last]]) rowId).rowIds =
        (full.flatten ++ front).replace rowId last := by
  obtain ⟨n,t,hlen,hpos,hle,_⟩ := hwf
  simp only [map_append,map_cons,map_nil] at hlen
  obtain ⟨hfull,ht⟩ := append_inj' hlen rfl
  have ht' : front.length + 1 = t := by simpa using ht
  have hn : full.length = n := by simpa using congrArg List.length hfull
  have hne : ∀ first second rest, full ++ [front ++ [last]] ≠ [first,second] :: rest := by
    intro first second rest heq
    cases full with
    | nil =>
      have htail : front ++ [last] = [first,second] := by simpa using (List.cons.inj heq).1
      have hlen := congrArg List.length htail
      simp only [length_append,length_cons,length_nil] at hlen
      simp only [flatten_nil,nil_append] at hlong
      omega
    | cons segment full =>
      have hseg : segment = [first,second] := (List.cons.inj heq).1
      subst hn
      have hfour := (List.cons.inj hfull).1
      simp [hseg,leafSize] at hfour
  rw [segmentsRemove_of_ne hne]
  simp only [getLastD_concat,dropLast_concat,length_append,
    length_singleton]
  by_cases hfront : front = []
  · subst hfront
    have hfullne : full ≠ [] := by
      intro hnil
      simp [hnil] at hlong
    rw [if_pos (by simp),freeTail_append hfullne]
    have hfullwf : SegmentsWf full := by
      obtain ⟨m,rfl⟩ : ∃ m, n = m + 1 :=
        ⟨n - 1,by have := length_pos_of_ne_nil hfullne; omega⟩
      exact ⟨m,leafSize,by rw [hfull,replicate_succ'],by simp [leafSize],
        le_rfl,by simp [leafSize]⟩
    split
    case isTrue heq =>
      refine ⟨rfl,hfullwf,?_⟩
      simp [rowIds,heq,replace_self]
    case isFalse =>
      refine ⟨rfl,segmentsWf_overwrite hfullwf _ _,?_⟩
      simp [rowIds,flatten_overwrite]
  · have hpos' := length_pos_of_ne_nil hfront
    rw [if_neg (by omega)]
    refine ⟨rfl,segmentsWf_overwrite ⟨n,front.length,?_,hpos',by omega,?_⟩ _ _,?_⟩
    · simp [hfull]
    · intro hzero
      obtain rfl := length_eq_zero_iff.mp (hn.trans hzero)
      simpa using hlong
    · simp [rowIds,flatten_overwrite]

theorem segmentsRemove_spec (h : SegmentsWf segments) (rowId : RowId) :
    (segmentsRemove segments rowId).isLeaf = true ∧ (segmentsRemove segments rowId).Wf ∧
      (segmentsRemove segments rowId).rowIds = removeRow segments.flatten rowId := by
  obtain ⟨full,tail,heq,hfull,hpos,_,htwo⟩ := h.exists_tail
  obtain ⟨front,last,htail⟩ : ∃ front last, tail = front ++ [last] :=
    ⟨_,_,(dropLast_append_getLast (ne_nil_of_length_pos hpos)).symm⟩
  subst htail
  subst heq
  by_cases hlong : 2 ≤ (full.flatten ++ front).length
  · have hflat : (full ++ [front ++ [last]]).flatten = (full.flatten ++ front) ++ [last] := by simp
    rw [hflat,removeRow_append hlong]
    exact segmentsRemove_long h hlong rowId
  -- two row ids in one segment: the one that stays is inlined
  have hnil : full = [] := by
    cases full with
    | nil => rfl
    | cons segment full =>
      have hfour : segment.length = 4 := (List.cons.inj hfull).1
      simp only [flatten_cons,length_append] at hlong
      omega
  subst hnil
  have hone : front.length = 1 := by
    have := htwo rfl
    simp only [flatten_nil,nil_append,length_append,
      length_singleton] at hlong this
    omega
  obtain ⟨first,rfl⟩ := length_eq_one_iff.mp hone
  by_cases hf : first = rowId
  · simp [segmentsRemove,removeRow,hf,isLeaf,Wf,rowIds]
  · by_cases hl : last = rowId
    · simp [segmentsRemove,removeRow,hf,hl,isLeaf,Wf,rowIds]
    · simpa [segmentsRemove,removeRow,hf,hl,isLeaf,Wf,rowIds] using
        segmentsWf_pair first last

theorem leafRemove_spec {node : Node} (hleaf : node.isLeaf = true) (hwf : node.Wf) (rowId : RowId) :
    ((node.leafRemove rowId).1 = true → removeRow node.rowIds rowId = []) ∧
      ((node.leafRemove rowId).1 = false → (node.leafRemove rowId).2.isLeaf = true ∧
        (node.leafRemove rowId).2.Wf ∧
        (node.leafRemove rowId).2.rowIds = removeRow node.rowIds rowId) := by
  cases node with
  | leafInlined first =>
    constructor
    · intro h
      simpa [leafRemove,rowIds,removeRow] using h
    · intro h
      have hne : first ≠ rowId := by simpa [leafRemove] using h
      simp [leafRemove,rowIds,removeRow,hne,isLeaf,Wf]
  | leaf segments =>
    constructor
    · intro h
      simp [leafRemove] at h
    · intro _
      exact segmentsRemove_spec hwf rowId
  | empty | prefixed | inner => simp [isLeaf] at hleaf

end Node

end PredTrans.Index
