import PredTrans.Sort.MergeSpec

/-! Each call of `GetNextPartition` moves on from one cut of the runs to the next, and the merges of
the partitions add up to a sorted list of all rows. -/

namespace PredTrans.Sort

open Library List

variable {α K : Type}

namespace SortedBlock

/-- The rows of a run. -/
def rows (sb : SortedBlock α) : List α := sb.blocks.flatten

theorem count_eq (sb : SortedBlock α) : sb.count = sb.rows.length := by
  simp [count,rows]

/-- Entry `e` of block `b` is row `idx`; `e` may also be the end of the block. -/
structure IsLocal (blocks : List (List α)) (idx b e : Nat) (before : List (List α))
    (block : List α) (after : List (List α)) : Prop where
  blocks : blocks = before ++ block :: after
  length : before.length = b
  entry : e ≤ block.length
  index : idx = before.flatten.length + e

theorem findBlock_spec (blocks : List (List α)) (blockIdx : Nat) (h : idx < blocks.flatten.length) :
    ∃ b e before block after, findBlock blocks blockIdx idx = some (blockIdx + b, e)
      ∧ IsLocal blocks idx b e before block after ∧ e < block.length := by
  induction blocks generalizing blockIdx idx with
  | nil => simp at h
  | cons block blocks ih =>
    by_cases hge : idx ≥ block.length
    · have hlt : idx - block.length < blocks.flatten.length := by
        simp only [flatten_cons,length_append] at h
        omega
      obtain ⟨b,e,before,found,after,hfind,hlocal,he⟩ := ih (blockIdx + 1) hlt
      refine ⟨b + 1,e,block :: before,found,after,?_,⟨by simp [hlocal.blocks],
        by simp [hlocal.length],hlocal.entry,?_⟩,he⟩
      · simp [findBlock,hge,hfind,add_assoc,add_comm 1]
      · have := hlocal.index
        simp only [flatten_cons,length_append]
        omega
    · exact ⟨0,idx,[],block,blocks,by simp [findBlock,hge],
        ⟨rfl,rfl,by omega,by simp⟩,by omega⟩

theorem globalToLocalIndex_spec (sb : SortedBlock α) (h : idx ≤ sb.rows.length) :
    ∃ b e before block after, sb.globalToLocalIndex idx = some (b, e)
      ∧ IsLocal sb.blocks idx b e before block after ∧
          (idx < sb.rows.length → e < block.length) := by
  unfold globalToLocalIndex
  rw [count_eq]
  by_cases hend : idx = sb.rows.length
  · rw [if_pos hend]
    have hlast := dropLast_append_getLast sb.nonempty
    refine ⟨_,_,sb.blocks.dropLast,sb.blocks.getLast sb.nonempty,[],rfl,
      ⟨hlast.symm,by simp,le_rfl,?_⟩,fun hlt => by omega⟩
    have hrows := congrArg (fun blocks => blocks.flatten.length) hlast
    simp only [flatten_append,length_append,flatten_cons,flatten_nil,
      append_nil] at hrows
    rw [hend,rows,← hrows]
  · rw [if_neg hend]
    obtain ⟨b,e,before,block,after,hfind,hlocal,he⟩ :=
      findBlock_spec sb.blocks 0 (show idx < sb.blocks.flatten.length from by
        simp only [rows] at h hend
        omega)
    exact ⟨b,e,before,block,after,by simpa using hfind,hlocal,fun _ => he⟩

theorem rowAt_eq (sb : SortedBlock α) (h : idx < sb.rows.length) :
    sb.rowAt idx = sb.rows[idx]? := by
  obtain ⟨b,e,before,block,after,hlocal,hloc,he⟩ := sb.globalToLocalIndex_spec h.le
  have hblock : sb.blocks[b]? = some block := by
    rw [hloc.blocks,← hloc.length]
    simp
  have hrow : sb.rows[idx]? = block[e]? := by
    rw [rows,hloc.blocks,hloc.index]
    simp [getElem?_append_right,getElem?_append_left (he h)]
  simp [rowAt,hlocal,hblock,hrow]

/-- The rows of a run up to an index. -/
theorem IsLocal.take {blocks before after : List (List α)}
    (h : IsLocal blocks idx b e before block after) :
    blocks.flatten.take idx = before.flatten ++ block.take e := by
  have he := h.entry
  rw [h.blocks,h.index]
  simp [take_append,Nat.sub_eq_zero_of_le he]

/-- The block of the first of two indices does not come after that of the second. -/
theorem IsLocal.exists_between {blocks before₁ after₁ before₂ after₂ : List (List α)}
    (h₁ : IsLocal blocks start b₁ e₁ before₁ block₁ after₁)
    (h₂ : IsLocal blocks stop b₂ e₂ before₂ block₂ after₂) (hle : start ≤ stop)
    (hsame : start = stop → b₁ = b₂ ∧ e₁ = e₂) :
    ∃ mid, before₂ = before₁ ++ mid ∧ block₁ :: after₁ = mid ++ block₂ :: after₂ := by
  rcases append_eq_append_iff.mp (h₁.blocks.symm.trans h₂.blocks) with
    ⟨mid,hbefore,hafter⟩ | ⟨mid,hbefore,hafter⟩
  · exact ⟨mid,hbefore,hafter⟩
  · cases mid with
    | nil => exact ⟨[],by simpa using hbefore.symm,by simpa using hafter.symm⟩
    | cons block mid =>
      -- the first index would lie in a later block
      obtain ⟨rfl,_⟩ := hafter
      have hlen := h₁.length
      have hi₁ := h₁.index
      rw [hbefore] at hlen hi₁
      simp only [length_append,length_cons,flatten_append,flatten_cons] at hlen hi₁
      have hi₂ := h₂.index
      have he₂ := h₂.entry
      have := h₂.length
      omega

theorem modify_last (l : List β) (x : β) (f : β → β) :
    (l ++ [x]).modify l.length f = l ++ [f x] := by
  induction l with
  | nil => rfl
  | cons y l ih => simp [ih]

theorem flatten_modify_drop {blocks : List (List α)} (h : e ≤ block.length) :
    ((block :: blocks).modify 0 (·.drop e)).flatten = (block :: blocks).flatten.drop e := by
  simp [drop_append_of_le_length h]

theorem createSlice_spec (sb : SortedBlock α) {start stop : Nat} (hle : start ≤ stop)
    (hstop : stop ≤ sb.rows.length) :
    ∃ slice, sb.createSlice start stop = some slice
      ∧ slice.flatten = (sb.rows.take stop).drop start := by
  obtain ⟨b₁,e₁,before₁,block₁,after₁,hl₁,h₁,hin⟩ :=
    sb.globalToLocalIndex_spec (hle.trans hstop)
  obtain ⟨b₂,e₂,before₂,block₂,after₂,hl₂,h₂,_⟩ := sb.globalToLocalIndex_spec hstop
  have hsame : start = stop → b₁ = b₂ ∧ e₁ = e₂ := by
    rintro rfl
    simpa using hl₁.symm.trans hl₂
  obtain ⟨mid,hbefore,hafter⟩ := h₁.exists_between h₂ hle hsame
  have hlen : b₂ = b₁ + mid.length := by
    have := congrArg List.length hbefore
    rw [h₂.length,length_append,h₁.length] at this
    exact this
  have hcopied : (sb.blocks.drop b₁).take (b₂ + 1 - b₁) = mid ++ [block₂] := by
    have hdrop : sb.blocks.drop b₁ = mid ++ block₂ :: after₂ := by
      rw [h₁.blocks,← h₁.length,hafter,drop_left]
    have hcount : b₂ + 1 - b₁ = mid.length + 1 := by omega
    rw [hdrop,hcount]
    simp [take_append]
  have hbounded : (mid ++ [block₂]).modify ((mid ++ [block₂]).length - 1) (·.take e₂)
      = mid ++ [block₂.take e₂] := by
    simp [modify_last]
  refine ⟨(mid ++ [block₂.take e₂]).modify 0 (·.drop e₁),by
    simp only [createSlice,hl₁,hl₂,hcopied,hbounded,Option.bind_eq_bind,Option.bind_some],?_⟩
  have htake : sb.rows.take stop = before₁.flatten ++ (mid ++ [block₂.take e₂]).flatten := by
    rw [rows,h₂.take,hbefore]
    simp
  rw [htake,h₁.index,← drop_drop,drop_left]
  have hi₁ := h₁.index
  have hi₂ := h₂.index
  cases mid with
  | nil =>
    have he : e₁ ≤ e₂ := by
      rw [hbefore,append_nil] at hi₂
      omega
    exact flatten_modify_drop (by simp [he,he.trans h₂.entry])
  | cons block mid =>
    simp only [cons_append,List.cons.injEq] at hafter
    exact flatten_modify_drop (hafter.1 ▸ h₁.entry)

end SortedBlock

section Keys

variable (key : α → K)

/-- The key of row `i`. -/
def keyAt (rows : List α) (i : Nat) : WithBot K := (rows[i]?).map key

variable {key}

theorem keyAt_of_lt (h : i < rows.length) : keyAt key rows i = (key rows[i] : WithBot K) := by
  simp [keyAt,h]
  rfl

end Keys

variable [LinearOrder K] {key : α → K}

/-- No row comes before one with a smaller key. -/
def SortedBy (key : α → K) (rows : List α) : Prop := rows.Pairwise fun a b => key a ≤ key b

theorem SortedBy.sortedBelow (h : SortedBy key rows) :
    SortedBelow (keyAt key rows) rows.length := by
  intro i j hij hj
  rw [keyAt_of_lt (by omega),keyAt_of_lt hj]
  rcases lt_or_ge i j with hlt | hge
  · exact WithBot.coe_le_coe.mpr (pairwise_iff_getElem.mp h i j (by omega) hj hlt)
  · obtain rfl : i = j := by omega
    exact le_rfl

/-- What a cut says about the rows of two runs. -/
theorem le_of_isCut (h : IsCut (keyAt key l) (keyAt key r) l.length r.length lCut rCut) :
    (∀ a ∈ l.take lCut, ∀ b ∈ r.drop rCut, key a ≤ key b)
      ∧ (∀ b ∈ r.take rCut, ∀ a ∈ l.drop lCut, key b ≤ key a) := by
  constructor
  · intro a ha b hb
    obtain ⟨i,hi,rfl⟩ := mem_take_iff_getElem.mp ha
    obtain ⟨j,hj,rfl⟩ := mem_drop_iff_getElem.mp hb
    have hle := h.left i (rCut + j) (by omega) (by omega) (by omega)
    rw [keyAt_of_lt (by omega),keyAt_of_lt (by omega)] at hle
    exact WithBot.coe_le_coe.mp hle
  · intro b hb a ha
    obtain ⟨j,hj,rfl⟩ := mem_take_iff_getElem.mp hb
    obtain ⟨i,hi,rfl⟩ := mem_drop_iff_getElem.mp ha
    have hle := h.right (lCut + i) j (by omega) (by omega) (by omega)
    rw [keyAt_of_lt (by omega),keyAt_of_lt (by omega)] at hle
    exact WithBot.coe_le_coe.mp hle

theorem compareTuple_pos : 0 < compareTuple key a b ↔ key b < key a := by
  unfold compareTuple
  split
  · rename_i h
    simp [h.le]
  · split <;> simp_all

theorem compareTuple_neg : compareTuple key a b < 0 ↔ key a < key b := by
  unfold compareTuple
  split
  · simp_all
  · split <;> simp_all

variable {left right : SortedBlock α}

/-- The comparisons of `GetIntersection` are those of the runs in which the rows in front of the
previous intersection are smaller than all others: no two such rows are ever compared. -/
theorem compares_compareUsingGlobalIndex (key : α → K) (left right : SortedBlock α)
    (hdiagonal : lStart + rStart < diagonal) :
    Compares (compareUsingGlobalIndex key left right lStart rStart)
      (raised lStart (keyAt key left.rows)) (raised rStart (keyAt key right.rows))
      left.count right.count diagonal := by
  intro i j hi hj hsum
  rw [left.count_eq] at hi
  rw [right.count_eq] at hj
  unfold compareUsingGlobalIndex
  rw [left.count_eq,right.count_eq,if_pos ⟨hi,hj⟩]
  by_cases hl : i < lStart
  · rw [if_pos hl,raised_of_lt hl,raised_of_le (by omega)]
    exact ⟨-1,rfl,by simp,by simp⟩
  have hleft : raised lStart (keyAt key left.rows) i = keyAt key left.rows i :=
    raised_of_le (by omega)
  rw [if_neg hl,hleft]
  by_cases hr : j < rStart
  · rw [if_pos hr,raised_of_lt hr]
    exact ⟨1,rfl,by simp,by simp⟩
  rw [if_neg hr,raised_of_le (by omega),left.rowAt_eq hi,right.rowAt_eq hj,
    getElem?_eq_getElem hi,getElem?_eq_getElem hj,keyAt_of_lt hi,keyAt_of_lt hj]
  refine ⟨_,rfl,?_,?_⟩
  · rw [compareTuple_pos]
    simp
  · rw [compareTuple_neg]
    simp

/-- The next partition starts where the last one ended: its slices hold the rows up to the next
cut. -/
structure NextPartition (key : α → K) (left right : SortedBlock α)
    (blockCapacity lStart rStart : Nat) (p : Partition α) : Prop where
  cut : IsCut (keyAt key left.rows) (keyAt key right.rows) left.rows.length right.rows.length
    p.lEnd p.rEnd
  le_left : lStart ≤ p.lEnd
  le_right : rStart ≤ p.rEnd
  left_rows : p.left.flatten = (left.rows.take p.lEnd).drop lStart
  right_rows : p.right.flatten = (right.rows.take p.rEnd).drop rStart
  size : p.lEnd + p.rEnd = min (lStart + rStart + blockCapacity)
    (left.rows.length + right.rows.length)

theorem merged_perm (l r : List α) : (merged key l r).Perm (l ++ r) :=
  merge_perm_append _

theorem SortedBy.merged (hl : SortedBy key l) (hr : SortedBy key r) :
    SortedBy key (Sort.merged key l r) := by
  induction l generalizing r with
  | nil => simpa using hr
  | cons a l ihl =>
    induction r with
    | nil => simpa using hl
    | cons b r ihr =>
      obtain ⟨ha,hl'⟩ := pairwise_cons.mp hl
      obtain ⟨hb,hr'⟩ := pairwise_cons.mp hr
      by_cases hlt : key a < key b
      · rw [merged_cons_of_lt hlt]
        refine pairwise_cons.mpr ⟨fun x hx => ?_,ihl hl' hr⟩
        rcases mem_append.mp ((merged_perm _ _).mem_iff.mp hx) with hx | hx
        · exact ha x hx
        · rcases mem_cons.mp hx with rfl | hx
          · exact hlt.le
          · exact hlt.le.trans (hb x hx)
      · have hle : key b ≤ key a := not_lt.mp hlt
        rw [merged_cons_of_not_lt hlt]
        refine pairwise_cons.mpr ⟨fun x hx => ?_,ihr hr'⟩
        rcases mem_append.mp ((merged_perm _ _).mem_iff.mp hx) with hx | hx
        · rcases mem_cons.mp hx with rfl | hx
          · exact hle
          · exact hle.trans (ha x hx)
        · exact hb x hx

theorem drop_eq_of_le {l : List α} (hij : i ≤ j) : l.drop i = (l.take j).drop i ++ l.drop j := by
  rcases le_total j l.length with hj | hj
  · conv_lhs => rw [← take_append_drop j l]
    exact drop_append_of_le_length (by simp; omega)
  · simp [take_of_length_le hj,drop_of_length_le hj]

section

variable (hl : SortedBy key left.rows) (hr : SortedBy key right.rows)
    (hcapacity : 0 < blockCapacity)
  (hstart : IsCut (keyAt key left.rows) (keyAt key right.rows) left.rows.length
    right.rows.length lStart rStart)
include hl hr

include hcapacity hstart in
theorem getNextPartition_spec :
    ∃ p, getNextPartition key left right blockCapacity lStart rStart = some p
      ∧ NextPartition key left right blockCapacity lStart rStart p := by
  have hends : ∃ lEnd rEnd,
      partitionEnds key left right blockCapacity lStart rStart = some (lEnd, rEnd)
      ∧ IsCut (keyAt key left.rows) (keyAt key right.rows) left.rows.length right.rows.length
        lEnd rEnd
      ∧ lStart ≤ lEnd ∧ rStart ≤ rEnd
      ∧ lEnd + rEnd = min (lStart + rStart + blockCapacity)
        (left.rows.length + right.rows.length) := by
    have hcl := left.count_eq
    have hcr := right.count_eq
    unfold partitionEnds
    by_cases hinside : lStart + rStart + blockCapacity < left.count + right.count
    · rw [if_pos hinside]
      obtain ⟨lEnd,rEnd,hrun,hsum,hcut⟩ := getIntersection_spec
        (compares_compareUsingGlobalIndex key left right
          (show lStart + rStart < lStart + rStart + blockCapacity by omega))
        (hcl ▸ hl.sortedBelow.raised lStart) (hcr ▸ hr.sortedBelow.raised rStart) hinside.le
      rw [hcl,hcr] at hcut
      obtain ⟨hcut,hle,hle'⟩ := hstart.of_raised hcut (by omega)
      exact ⟨lEnd,rEnd,hrun,hcut,hle,hle',by omega⟩
    · rw [if_neg hinside]
      exact ⟨left.count,right.count,rfl,by rw [hcl,hcr]; exact isCut_all,
        hcl ▸ hstart.le_left,hcr ▸ hstart.le_right,by omega⟩
  obtain ⟨lEnd,rEnd,hrun,hcut,hle,hle',hsize⟩ := hends
  obtain ⟨lSlice,hlSlice,hlRows⟩ := left.createSlice_spec hle hcut.le_left
  obtain ⟨rSlice,hrSlice,hrRows⟩ := right.createSlice_spec hle' hcut.le_right
  refine ⟨⟨lSlice,rSlice,lEnd,rEnd⟩,?_,hcut,hle,hle',hlRows,hrRows,hsize⟩
  simp [getNextPartition,hrun,hlSlice,hrSlice]

/-- The partitions handed out from a cut on: each starts where the one before it ended, none starts
further back, all but the last hold `blockCapacity` rows, and the last one ends both runs. -/
def HandedOut (key : α → K) (left right : SortedBlock α) (blockCapacity : Nat) :
    Nat → Nat → List (Partition α) → Prop
  | _, _, [] => False
  | lStart, rStart, p :: rest =>
    NextPartition key left right blockCapacity lStart rStart p
      ∧ (rest = [] → p.lEnd = left.rows.length ∧ p.rEnd = right.rows.length)
      ∧ (rest ≠ [] → (p.lEnd - lStart) + (p.rEnd - rStart) = blockCapacity
        ∧ HandedOut key left right blockCapacity p.lEnd p.rEnd rest)

include hcapacity hstart in
theorem getPartitions_spec
    (hcalls : left.rows.length + right.rows.length < calls + (lStart + rStart)) :
    ∃ ps, getPartitions key left right blockCapacity calls lStart rStart = some ps
      ∧ HandedOut key left right blockCapacity lStart rStart ps := by
  induction calls generalizing lStart rStart with
  | zero =>
    have := hstart.le_left
    have := hstart.le_right
    omega
  | succ calls ih =>
    obtain ⟨p,hrun,hp⟩ := getNextPartition_spec hl hr hcapacity hstart
    have hsize := hp.size
    have hleft := hp.cut.le_left
    have hright := hp.cut.le_right
    have hge := hp.le_left
    have hge' := hp.le_right
    by_cases hend : p.lEnd = left.rows.length ∧ p.rEnd = right.rows.length
    · refine ⟨[p],?_,hp,fun _ => hend,fun h => absurd rfl h⟩
      simp [getPartitions,hrun,left.count_eq,right.count_eq,hend]
    obtain ⟨ps,hps,hrest⟩ := ih hp.cut (by omega)
    have hne : ps ≠ [] := by
      rintro rfl
      exact hrest
    refine ⟨p :: ps,?_,hp,fun h => absurd h hne,fun _ => ⟨by omega,hrest⟩⟩
    simp [getPartitions,hrun,left.count_eq,right.count_eq,hend,hps]

/-- The merges of all partitions, one after the other. -/
def mergePartitions (key : α → K) (vectorSize capacity fuel : Nat) (ps : List (Partition α)) :
    Option (List (List α)) :=
  ps.mapM fun p => mergePartition key vectorSize capacity fuel 0 [] p.left p.right

theorem le_across_cut
    (hcut : IsCut (keyAt key left.rows) (keyAt key right.rows) left.rows.length right.rows.length
      lCut rCut) (ha : a ∈ left.rows.take lCut ++ right.rows.take rCut)
    (hb : b ∈ left.rows.drop lCut ++ right.rows.drop rCut) : key a ≤ key b := by
  obtain ⟨hleft,hright⟩ := le_of_isCut hcut
  unfold SortedBy at hl hr
  rw [← take_append_drop lCut left.rows,pairwise_append] at hl
  rw [← take_append_drop rCut right.rows,pairwise_append] at hr
  rcases mem_append.mp ha with ha | ha <;> rcases mem_append.mp hb with hb | hb
  · exact hl.2.2 a ha b hb
  · exact hleft a ha b hb
  · exact hright a ha b hb
  · exact hr.2.2 a ha b hb

theorem mergePartitions_spec {blockCapacity vectorSize capacity fuel lStart rStart : Nat}
    (hvector : 0 < vectorSize) (hcapacity : blockCapacity ≤ capacity)
    (hfuel : left.rows.length + right.rows.length < fuel)
    (h : HandedOut key left right blockCapacity lStart rStart ps) :
    ∃ merges, mergePartitions key vectorSize capacity fuel ps = some merges
      ∧ SortedBy key merges.flatten
      ∧ merges.flatten.Perm (left.rows.drop lStart ++ right.rows.drop rStart) := by
  induction ps generalizing lStart rStart with
  | nil => exact h.elim
  | cons p rest ih =>
    obtain ⟨hp,hlast,hmore⟩ := h
    -- what the partitions after this one merge
    obtain ⟨merges,hrun,hsorted,hperm⟩ : ∃ merges,
        mergePartitions key vectorSize capacity fuel rest = some merges
        ∧ SortedBy key merges.flatten
        ∧ merges.flatten.Perm (left.rows.drop p.lEnd ++ right.rows.drop p.rEnd) := by
      by_cases hrest : rest = []
      · obtain ⟨hlEnd,hrEnd⟩ := hlast hrest
        exact ⟨[],by simp [mergePartitions,hrest],List.Pairwise.nil,by simp [hlEnd,hrEnd]⟩
      · exact ih (hmore hrest).2
    have hsize := hp.size
    have hlLen := congrArg List.length hp.left_rows
    have hrLen := congrArg List.length hp.right_rows
    simp only [length_drop,length_take] at hlLen hrLen
    have hge := hp.le_left
    have hge' := hp.le_right
    have hmerge : mergePartition key vectorSize capacity fuel 0 [] p.left p.right
        = some (merged key p.left.flatten p.right.flatten) :=
      mergePartition_spec hvector (by omega) (by omega)
    unfold mergePartitions at hrun ⊢
    rw [hp.left_rows,hp.right_rows] at hmerge
    refine ⟨_ :: merges,by rw [mapM_cons,hmerge,hrun]; rfl,?_,?_⟩
    · refine pairwise_append.mpr ⟨?_,hsorted,?_⟩
      · exact SortedBy.merged (hl.sublist ((drop_sublist _ _).trans (take_sublist _ _)))
          (hr.sublist ((drop_sublist _ _).trans (take_sublist _ _)))
      intro a ha b hb
      refine le_across_cut hl hr hp.cut ?_ (hperm.mem_iff.mp hb)
      have ha' := (merged_perm _ _).mem_iff.mp ha
      exact mem_append.mpr ((mem_append.mp ha').imp mem_of_mem_drop
        mem_of_mem_drop)
    · have hleft := drop_eq_of_le (l := left.rows) hp.le_left
      have hright := drop_eq_of_le (l := right.rows) hp.le_right
      refine ((merged_perm _ _).append hperm).trans ?_
      rw [hleft,hright]
      simp
      exact (perm_append_comm_assoc _ _ _).append_left _

end

/-- Two sorted runs, cut into blocks in any way, are merged partition by partition. The calls of
`GetNextPartition` hand out consecutive partitions that cover both runs, and the merges of the
partitions, one after the other, are the rows of both runs in order. All index computations and
comparisons stay within the runs, else the result would be `none`. -/
theorem parallel_merge_sorts (key : α → K) (left right : SortedBlock α)
    (hl : SortedBy key left.rows) (hr : SortedBy key right.rows)
    {blockCapacity vectorSize capacity fuel : Nat} (hblock : 0 < blockCapacity)
    (hvector : 0 < vectorSize) (hcapacity : blockCapacity ≤ capacity)
    (hfuel : left.count + right.count < fuel) :
    ∃ ps, getPartitions key left right blockCapacity fuel 0 0 = some ps
      ∧ HandedOut key left right blockCapacity 0 0 ps
      ∧ ∃ merges, mergePartitions key vectorSize capacity fuel ps = some merges
        ∧ SortedBy key merges.flatten
        ∧ merges.flatten.Perm (left.rows ++ right.rows) := by
  rw [left.count_eq,right.count_eq] at hfuel
  obtain ⟨ps,hps,hhanded⟩ := getPartitions_spec hl hr hblock isCut_zero
    (show _ < fuel + (0 + 0) from hfuel)
  obtain ⟨merges,hrun,hsorted,hperm⟩ := mergePartitions_spec hl hr hvector hcapacity hfuel hhanded
  exact ⟨ps,hps,hhanded,merges,hrun,hsorted,hperm⟩

/-- Two runs of three and two rows with ties across them, in partitions of two rows. -/
theorem parallel_merge_sorts_ties :
    ∃ ps, getPartitions id ⟨[[1, 2], [2]], by simp⟩ ⟨[[2], [3]], by simp⟩ 2 6 0 0 = some ps
      ∧ ∃ merges, mergePartitions (id : Nat → Nat) 1 2 6 ps = some merges
        ∧ SortedBy id merges.flatten ∧ merges.flatten.Perm [1, 2, 2, 2, 3] := by
  obtain ⟨ps,hps,-,merges,hrun,hsorted,hperm⟩ := parallel_merge_sorts (id : Nat → Nat)
    ⟨[[1,2],[2]],by simp⟩ ⟨[[2],[3]],by simp⟩ (by simp [SortedBy,SortedBlock.rows])
      (by simp [SortedBy,SortedBlock.rows])
    (show 0 < 2 by decide) (show 0 < 1 by decide) (le_refl 2) (show _ < 6 by decide)
  exact ⟨ps,hps,merges,hrun,hsorted,hperm⟩

end PredTrans.Sort
