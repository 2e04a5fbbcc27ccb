import PredTrans.Window.SegmentTree

/-! What the pieces of a segment tree stand for: a node for a block of rows, a buffered value for
rows that are added to one state, and what is buffered from the levels for the rows of the nodes.
-/

namespace PredTrans.Window

open List
open Function (update)

variable {S : Type} {agg : Aggregate S}

/-- The state after the rows one by one. -/
def Aggregate.value (agg : Aggregate S) (rows : List Nat) : S := rows.foldl agg.update agg.initial

namespace Aggregate.Lawful

theorem combine_value (law : agg.Lawful) (s : S) (rows : List Nat) :
    agg.combine s (agg.value rows) = rows.foldl agg.update s := by
  induction rows using List.reverseRecOn with
  | nil => exact law.combine_initial s
  | append_singleton rows row ih =>
    simp only [value,foldl_append,foldl_cons,foldl_nil] at ih ⊢
    rw [law.update_eq (rows.foldl agg.update agg.initial),← law.assoc,ih,← law.update_eq]

theorem foldl_perm (law : agg.Lawful) (hfree : agg.orderInsensitive = true) {rows others : List Nat}
    (hperm : rows.Perm others) (s : S) : rows.foldl agg.update s = others.foldl agg.update s := by
  refine hperm.foldl_eq' (fun row _ other _ s => ?_) s
  rw [law.update_eq (agg.update s row),law.update_eq (agg.update s other),law.update_eq s row,
    law.update_eq s other,law.assoc,law.assoc,law.comm hfree (agg.update _ row)]

end Aggregate.Lawful

/-! ### Rows and blocks -/

section Rows

variable (rows : WindowRows)

/-- The rows of a range that pass the filter. -/
def WindowRows.kept (first last : Nat) : List Nat := (range' first (last - first)).filter rows.keep

/-- The rows below the nodes of a range of one level. -/
def WindowRows.below (level first last : Nat) : List Nat :=
  rows.kept (first * treeFanout ^ level) (last * treeFanout ^ level)

variable {rows}

theorem kept_append {first mid last : Nat} (hleft : first ≤ mid) (hright : mid ≤ last) :
    rows.kept first mid ++ rows.kept mid last = rows.kept first last := by
  have hrange := range'_append_1 (s := first) (m := mid - first) (n := last - mid)
  rw [Nat.add_sub_cancel' hleft] at hrange
  simp only [WindowRows.kept,← filter_append]
  rw [hrange,show mid - first + (last - mid) = last - first by omega]

@[simp] theorem kept_self (first : Nat) : rows.kept first first = [] := by simp [WindowRows.kept]

theorem kept_of_le {first last : Nat} (h : last ≤ first) : rows.kept first last = [] := by
  simp [WindowRows.kept,Nat.sub_eq_zero_of_le h]

@[simp] theorem below_self (level first : Nat) : rows.below level first first = [] := kept_self _

theorem below_append {level first mid last : Nat} (hleft : first ≤ mid) (hright : mid ≤ last) :
    rows.below level first mid ++ rows.below level mid last = rows.below level first last :=
  kept_append (Nat.mul_le_mul_right _ hleft) (Nat.mul_le_mul_right _ hright)

/-- A node stands for the same rows as its children. -/
theorem below_succ (level first last : Nat) :
    rows.below (level + 1) first last = rows.below level (first * treeFanout)
        (last * treeFanout) := by
  simp only [WindowRows.below,pow_succ',Nat.mul_assoc]

/-- The nodes of a range, one after the other, have its rows. -/
theorem foldl_below {add : S → Nat → S} {level first : Nat} :
    ∀ {count : Nat}, (∀ i < count, ∀ s, add s (first + i) =
        (rows.below level (first + i) (first + i + 1)).foldl agg.update s) →
      ∀ s, (range' first count).foldl add s =
        (rows.below level first (first + count)).foldl agg.update s
  | 0, _, s => by simp
  | count + 1, hadd, s => by
    rw [range'_concat,foldl_append,foldl_below (fun i hi => hadd i (by omega)) s,Nat.one_mul]
    simp only [foldl_cons,foldl_nil]
    rw [hadd count (by omega),← foldl_append,below_append (by omega) (by omega),Nat.add_assoc]

end Rows

/-! ### The nodes -/

/-- Every node over a full block is the aggregate of its rows; above the highest level there is
none. -/
structure Built (agg : Aggregate S) (rows : WindowRows) (tree : List (List S)) : Prop where
  node : ∀ level i, (i + 1) * treeFanout ^ (level + 1) ≤ rows.size →
    nodeAt agg tree (level + 1) i = agg.value (rows.below (level + 1) i (i + 1))
  height : rows.size ≤ treeFanout ^ tree.length

section Construct

variable {rows : WindowRows}

/-- `add` adds the values of a level, of which there are `size`. -/
structure LevelOf (agg : Aggregate S) (rows : WindowRows) (level size : Nat) (add : S → Nat → S) :
    Prop where
  add_eq : ∀ i, (i + 1) * treeFanout ^ level ≤ rows.size →
    ∀ s, add s i = (rows.below level i (i + 1)).foldl agg.update s
  lt_size : ∀ i, (i + 1) * treeFanout ^ level ≤ rows.size → i < size

theorem child_full {level i j : Nat} (hfull : (i + 1) * treeFanout ^ (level + 1) ≤ rows.size)
    (hj : j < treeFanout) : (i * treeFanout + j + 1) * treeFanout ^ level ≤ rows.size := by
  calc (i * treeFanout + j + 1) * treeFanout ^ level
      ≤ ((i + 1) * treeFanout) * treeFanout ^ level := by
        refine Nat.mul_le_mul_right _ ?_
        rw [Nat.add_mul]
        omega
    _ = (i + 1) * treeFanout ^ (level + 1) := by rw [pow_succ',Nat.mul_assoc]
    _ ≤ rows.size := hfull

theorem LevelOf.children_le {level size i : Nat} {add : S → Nat → S}
    (h : LevelOf agg rows level size add)
    (hfull : (i + 1) * treeFanout ^ (level + 1) ≤ rows.size) :
    i * treeFanout + treeFanout ≤ size := by
  have hlast := h.lt_size _ (child_full hfull (show treeFanout - 1 < treeFanout by decide))
  simp only [treeFanout] at hlast ⊢
  omega

theorem LevelOf.nodes {level size i : Nat} {add : S → Nat → S} (h : LevelOf agg rows level size add)
    (hfull : (i + 1) * treeFanout ^ (level + 1) ≤ rows.size) :
    i < (levelNodes agg size add).length ∧
      (levelNodes agg size add).getD i agg.initial =
          agg.value (rows.below (level + 1) i (i + 1)) := by
  have hsize := h.children_le hfull
  have hlt : i < (size + (treeFanout - 1)) / treeFanout := by
    simp only [treeFanout] at hsize ⊢
    omega
  have hcount : min size (i * treeFanout + treeFanout) - i * treeFanout = treeFanout := by omega
  refine ⟨by simpa [levelNodes] using hlt,?_⟩
  simp only [levelNodes,getD_eq_getElem?_getD,getElem?_map,getElem?_range hlt,Option.map_some,
    Option.getD_some,hcount]
  rw [foldl_below (fun j hj s => h.add_eq _ (child_full hfull hj) s),below_succ,Nat.add_one_mul]
  rfl

/-- The nodes of one level are the values of the next. -/
theorem LevelOf.next (law : agg.Lawful) {level size : Nat} {add : S → Nat → S}
    (h : LevelOf agg rows level size add) :
    LevelOf agg rows (level + 1) (levelNodes agg size add).length
      fun s i => agg.combine s ((levelNodes agg size add).getD i agg.initial) where
  add_eq i hfull s := by rw [(h.nodes hfull).2,law.combine_value]
  lt_size i hfull := (h.nodes hfull).1

theorem LevelOf.one_lt {level size i : Nat} {add : S → Nat → S}
    (h : LevelOf agg rows level size add)
    (depth : Nat) (hfull : (i + 1) * treeFanout ^ (level + depth + 1) ≤ rows.size) :
    ¬ size ≤ 1 := by
  have htwo : (1 + 1) * treeFanout ^ level ≤ rows.size :=
    calc (1 + 1) * treeFanout ^ level
        ≤ treeFanout * treeFanout ^ level := Nat.mul_le_mul_right _ (by decide)
      _ = treeFanout ^ (level + 1) := (pow_succ' ..).symm
      _ ≤ treeFanout ^ (level + depth + 1) := Nat.pow_le_pow_right (by decide) (by omega)
      _ ≤ (i + 1) * treeFanout ^ (level + depth + 1) := Nat.le_mul_of_pos_left _ (by omega)
      _ ≤ rows.size := hfull
  have hone := h.lt_size 1 htwo
  omega

/-- Induction on how far a level is above the one the loop is at. -/
theorem constructLevels_node (law : agg.Lawful) (depth : Nat) :
    ∀ {level size : Nat} {add : S → Nat → S}, LevelOf agg rows level size add → ∀ i,
      (i + 1) * treeFanout ^ (level + depth + 1) ≤ rows.size →
      ((constructLevels agg size add).getD depth []).getD i agg.initial =
        agg.value (rows.below (level + depth + 1) i (i + 1)) := by
  induction depth with
  | zero =>
    intro level size add h i hfull
    rw [constructLevels,if_neg (h.one_lt 0 hfull)]
    exact (h.nodes hfull).2
  | succ depth ih =>
    intro level size add h i hfull
    have hlevel : level + (depth + 1) = level + 1 + depth := by omega
    rw [constructLevels,if_neg (h.one_lt (depth + 1) hfull)]
    rw [hlevel] at hfull ⊢
    exact ih (h.next law) i hfull

theorem size_le_constructLevels (size : Nat) (add : S → Nat → S) :
    size ≤ treeFanout ^ (constructLevels agg size add).length := by
  fun_induction constructLevels agg size add with
  | case1 size add h => simpa using h
  | case2 size add h nodes ih =>
    have hnodes : nodes.length = (size + (treeFanout - 1)) / treeFanout := by
      simp [nodes,levelNodes]
    rw [length_cons,pow_succ]
    simp only [hnodes,treeFanout] at ih ⊢
    omega

theorem levelOf_rows (agg : Aggregate S) (rows : WindowRows) : LevelOf agg rows 0 rows.size
    fun s row => if rows.keep row then agg.update s row else s where
  add_eq row _ s := by
    simp only [WindowRows.below,WindowRows.kept,pow_zero,Nat.mul_one,Nat.add_sub_cancel_left,
      range'_one]
    cases hkeep : rows.keep row <;> simp [hkeep]
  lt_size row hrow := by simpa using hrow

theorem constructTree_built (law : agg.Lawful) (rows : WindowRows) :
    Built agg rows (constructTree agg rows) where
  node level i hfull := by
    have hnode := constructLevels_node law level (levelOf_rows agg rows) i
    rw [Nat.zero_add] at hnode
    exact hnode hfull
  height := size_le_constructLevels _ _

end Construct

/-! ### The buffer -/

section Buffer

variable {tree : List (List S)}

/-- The states once all that waits has been added. -/
def PartState.settled (agg : Aggregate S) (tree : List (List S)) (part : PartState S) : Nat → S :=
  part.pending.foldl (applyPending agg tree) part.states

/-- All that waits is to be combined, or all is rows. -/
def PartState.Only (part : PartState S) (combining : Bool) : Prop :=
  ∀ entry ∈ part.pending, entry.combining = combining

theorem flushStates_states (agg : Aggregate S) (tree : List (List S)) {part : PartState S}
    {combining : Bool} (h : part.Only combining) :
    (flushStates agg tree combining part).states = part.settled agg tree := by
  simp only [flushStates,PartState.settled]
  rw [filter_eq_self.mpr fun entry hentry => by simpa using h entry hentry]

theorem pushPending_spec (agg : Aggregate S) (tree : List (List S)) {part : PartState S}
    {combining : Bool} {entry : Pending} (h : part.Only combining)
    (hentry : entry.combining = combining) :
    (pushPending agg tree combining part entry).Only combining ∧
      (pushPending agg tree combining part entry).settled agg tree =
        applyPending agg tree (part.settled agg tree) entry := by
  have hpushed : PartState.Only ⟨part.states,part.pending ++ [entry]⟩ combining := by
    intro other hother
    rcases mem_append.mp hother with hold | hnew
    · exact h other hold
    · rw [mem_singleton.mp hnew,hentry]
  simp only [pushPending]
  split
  · refine ⟨by simp [PartState.Only,flushStates],?_⟩
    have hflush := flushStates_states agg tree hpushed
    simp only [PartState.settled,foldl_append,foldl_cons,foldl_nil] at hflush ⊢
    rw [← hflush]
    rfl
  · exact ⟨hpushed,by simp [PartState.settled]⟩

/-- Flushes on the way do not matter. -/
theorem foldl_pushPending (agg : Aggregate S) (tree : List (List S)) {combining : Bool}
    {entries : List Pending}
    (hentries : ∀ entry ∈ entries, entry.combining = combining) {part : PartState S}
    (h : part.Only combining) :
    (entries.foldl (pushPending agg tree combining) part).Only combining ∧
      (entries.foldl (pushPending agg tree combining) part).settled agg tree =
        entries.foldl (applyPending agg tree) (part.settled agg tree) := by
  induction entries generalizing part with
  | nil => exact ⟨h,rfl⟩
  | cons entry entries ih =>
    have hpush := pushPending_spec agg tree h (hentries entry mem_cons_self)
    have hrest := ih (fun other hother => hentries other (mem_cons_of_mem _ hother)) hpush.1
    rw [hpush.2] at hrest
    exact hrest

/-- `entries` are of one kind, add `added` to the state of `target` and leave the other states. -/
structure Adds (agg : Aggregate S) (tree : List (List S)) (combining : Bool) (target : Nat)
    (entries : List Pending) (added : List Nat) : Prop where
  only : ∀ entry ∈ entries, entry.combining = combining
  apply : ∀ states : Nat → S, entries.foldl (applyPending agg tree) states =
    update states target (added.foldl agg.update (states target))

namespace Adds

variable {combining : Bool} {target : Nat} {entries more : List Pending} {added others : List Nat}

theorem nil : Adds agg tree combining target [] [] := ⟨by simp,fun states => by simp⟩

theorem append (h : Adds agg tree combining target entries added)
    (hmore : Adds agg tree combining target more others) :
    Adds agg tree combining target (entries ++ more) (added ++ others) where
  only entry hentry := (mem_append.mp hentry).elim (h.only entry) (hmore.only entry)
  apply states := by
    rw [foldl_append,h.apply,hmore.apply,Function.update_self,Function.update_idem,foldl_append]

theorem perm (law : agg.Lawful) (hfree : agg.orderInsensitive = true)
    (h : Adds agg tree combining target entries added) (hperm : added.Perm others) :
    Adds agg tree combining target entries others where
  only := h.only
  apply states := by rw [h.apply,law.foldl_perm hfree hperm]

theorem ite (h : Adds agg tree combining target entries added) (p : Prop) [Decidable p] :
    Adds agg tree combining target (if p then entries else []) (if p then added else []) := by
  split
  · exact h
  · exact nil

theorem leaves (rows : WindowRows) (first last : Nat) :
    Adds agg tree false target (leafEntries rows target first last) (rows.kept first last) := by
  simp only [leafEntries,WindowRows.kept]
  induction (range' first (last - first)).filter rows.keep with
  | nil => exact nil
  | cons row rest ih =>
    have hrow : Adds agg tree false target [.leaf target row] [row] :=
      ⟨by simp [Pending.combining],fun states => rfl⟩
    exact hrow.append ih

theorem node (law : agg.Lawful) {rows : WindowRows} (built : Built agg rows tree) {level i : Nat}
    (hfull : (i + 1) * treeFanout ^ (level + 1) ≤ rows.size) :
    Adds agg tree true target [.node target (level + 1) i] (rows.below (level + 1) i (i + 1)) where
  only := by simp [Pending.combining]
  apply states := by
    simp only [foldl_cons,foldl_nil,applyPending]
    rw [built.node level i hfull,law.combine_value]

theorem nodes (law : agg.Lawful) {rows : WindowRows} (built : Built agg rows tree)
    {level first : Nat}
    (count : Nat) (hfull : (first + count) * treeFanout ^ (level + 1) ≤ rows.size) :
    Adds agg tree true target ((range' first count).map (.node target (level + 1)))
      (rows.below (level + 1) first (first + count)) := by
  induction count with
  | zero => simpa using nil
  | succ count ih =>
    have hinit := ih (le_trans (Nat.mul_le_mul_right _ (by omega)) hfull)
    rw [range'_concat,map_append,Nat.one_mul,
      ← below_append (show first ≤ first + count by omega) (by omega)]
    exact hinit.append (node law built hfull)

theorem nodeEntries (law : agg.Lawful) {rows : WindowRows} (built : Built agg rows tree)
    {level first last : Nat} (hle : first ≤ last)
    (hfull : last * treeFanout ^ (level + 1) ≤ rows.size) :
    Adds agg tree true target (nodeEntries target (level + 1) first last)
      (rows.below (level + 1) first last) := by
  obtain ⟨count,rfl⟩ := Nat.exists_eq_add_of_le hle
  simpa [Window.nodeEntries] using nodes law built count hfull

end Adds

end Buffer

/-! ### The levels -/

section Levels

variable {tree : List (List S)} {rows : WindowRows} {target : Nat}

/-- The first node of the next level that lies inside a range from `first` on. -/
def parentOf (first : Nat) : Nat := (first + (treeFanout - 1)) / treeFanout

theorem parentFirst_eq (first : Nat) :
    (if first ≠ first / treeFanout * treeFanout then first / treeFanout + 1
      else first / treeFanout) = parentOf first := by
  split
  all_goals
    simp only [parentOf,treeFanout] at *
    omega

theorem parentOf_bounds {first last : Nat} (hle : first ≤ last)
    (hparents : first / treeFanout ≠ last / treeFanout) :
    first ≤ parentOf first * treeFanout ∧ parentOf first ≤ last / treeFanout ∧
      last / treeFanout * treeFanout ≤ last := by
  simp only [parentOf,treeFanout] at hparents ⊢
  omega

/-- A group that begins in front of the range is added from the range on; if there is none,
nothing. -/
theorem leftGroup_eq (f : Nat → Nat → List α) (hempty : ∀ n, f n n = []) (first : Nat) :
    (if first ≠ first / treeFanout * treeFanout then
      f first (first / treeFanout * treeFanout + treeFanout) else []) =
    f first (parentOf first * treeFanout) := by
  split
  · rename_i h
    congr 1
    simp only [parentOf,treeFanout] at h ⊢
    omega
  · rename_i h
    have hself : parentOf first * treeFanout = first := by
      simp only [parentOf,treeFanout] at h ⊢
      omega
    rw [hself,hempty]

theorem rightGroup_eq (f : Nat → Nat → List α) (hempty : ∀ n, f n n = []) (last : Nat) :
    (if last ≠ last / treeFanout * treeFanout then f (last / treeFanout * treeFanout) last
      else []) =
    f (last / treeFanout * treeFanout) last := by
  split
  · rfl
  · rename_i h
    rw [← not_not.mp h,hempty]

theorem nodeEntries_self (target level first : Nat) :
    nodeEntries target level first first = [] := by
  simp [nodeEntries]

/-- The rows of a range are those to the left of the nodes inside, theirs and those to the right. -/
theorem below_split (rows : WindowRows) (level : Nat) {first last : Nat} (hle : first ≤ last)
    (hparents : first / treeFanout ≠ last / treeFanout) :
    rows.below level first (parentOf first * treeFanout) ++
      (rows.below (level + 1) (parentOf first) (last / treeFanout) ++
        rows.below level (last / treeFanout * treeFanout) last) = rows.below level first last := by
  obtain ⟨hfirst,hmid,hlast⟩ := parentOf_bounds hle hparents
  have hinner := Nat.mul_le_mul_right treeFanout hmid
  rw [below_succ,below_append hinner hlast,below_append hfirst (le_trans hinner hlast)]

theorem sharedWith_above (level first last : Nat) (prev : Option PrevState) :
    sharedWith (level + 1 + 1) first last prev = none := by
  cases prev <;> simp [sharedWith]

/-- One level: what is left of the nodes above and right of them, in the order of the source. -/
theorem climb_adds (law : agg.Lawful) (built : Built agg rows tree) (fuel : Nat) :
    ∀ {level first last : Nat} {prev : Option PrevState} {rights : List Pending} {added : List Nat},
      first ≤ last → last < treeFanout ^ fuel → last * treeFanout ^ (level + 1) ≤ rows.size →
      sharedWith (level + 1) first last prev = none → Adds agg tree true target rights added →
      Adds agg tree true target (climb agg target fuel (level + 1) first last prev rights).2
        (rows.below (level + 1) first last ++ added) := by
  induction fuel with
  | zero =>
    intro level first last prev rights added hle hlast hsize hshared hrights
    have hzero : first = last := by simp at hlast; omega
    simpa [climb,hzero] using hrights
  | succ fuel ih =>
    intro level first last prev rights added hle hlast hsize hshared hrights
    simp only [climb,hshared,Nat.succ_ne_zero,if_false,parentFirst_eq,
      leftGroup_eq _ (nodeEntries_self target (level + 1)),
      rightGroup_eq _ (nodeEntries_self target (level + 1))]
    split
    · exact (Adds.nodeEntries law built hle hsize).append hrights
    · rename_i hparents
      obtain ⟨hfirst,hmid,hend⟩ := parentOf_bounds hle hparents
      have hfuel : last / treeFanout < treeFanout ^ fuel :=
        Nat.div_lt_of_lt_mul (by rwa [← pow_succ'])
      have hsizeOf : ∀ n ≤ last, n * treeFanout ^ (level + 1) ≤ rows.size := fun n hn =>
        le_trans (Nat.mul_le_mul_right _ hn) hsize
      have hsizeAbove : last / treeFanout * treeFanout ^ (level + 1 + 1) ≤ rows.size := by
        rw [pow_succ',← Nat.mul_assoc]
        exact hsizeOf _ hend
      have hinner := Nat.mul_le_mul_right treeFanout hmid
      have hleft : Adds agg tree true target _ _ := Adds.nodeEntries law built hfirst
        (hsizeOf _ (le_trans hinner hend))
      have hright : Adds agg tree true target _ _ := Adds.nodeEntries law built hend hsize
      have habove : ∀ {prev rights added}, Adds agg tree true target rights added →
          Adds agg tree true target (climb agg target fuel (level + 1 + 1) (parentOf first)
            (last / treeFanout) prev rights).2 (rows.below (level + 1 + 1) (parentOf first)
              (last / treeFanout) ++ added) := fun h =>
        ih hmid hfuel hsizeAbove (sharedWith_above ..) h
      rw [← below_split rows _ hle hparents]
      cases hfree : agg.orderInsensitive with
      | false =>
        simp only [Bool.false_eq_true,if_false,append_nil,append_assoc]
        exact hleft.append (habove (hright.append hrights))
      | true =>
        simp only [if_true,append_assoc]
        refine (hleft.append (hright.append (habove hrights))).perm law hfree ?_
        exact Perm.append_left _ (perm_append_comm_assoc ..)

/-- Only the level above the leaves is shared. -/
theorem climb_prev (fuel : Nat) : ∀ (level first last : Nat) (prev : Option PrevState)
    (rights : List Pending),
    (climb agg target fuel (level + 1 + 1) first last prev rights).1 = prev := by
  induction fuel with
  | zero => intro level first last prev rights; rfl
  | succ fuel ih =>
    intro level first last prev rights
    simp only [climb,sharedWith_above,Nat.succ_ne_zero,Nat.add_eq_right,if_false,and_false]
    split
    · rfl
    · exact ih ..

theorem sharedWith_eq_some {level first last source : Nat} {prev : Option PrevState}
    (h : sharedWith level first last prev = some source) : prev = some ⟨source, first, last⟩ := by
  cases prev with
  | none => simp [sharedWith] at h
  | some prev =>
    simp only [sharedWith,Option.ite_none_right_eq_some,Option.some.injEq] at h
    obtain ⟨⟨-,rfl,rfl⟩,rfl⟩ := h
    rfl

/-- The leaves are left to the other pass. -/
theorem climb_leaves (fuel first last : Nat) (prev : Option PrevState) :
    climb agg target (fuel + 1) 0 first last prev [] =
      if first / treeFanout = last / treeFanout then (prev, [])
      else climb agg target fuel 1 (parentOf first) (last / treeFanout) prev [] := by
  have hshared : sharedWith 0 first last prev = none := by cases prev <;> simp [sharedWith]
  simp only [climb,hshared,parentFirst_eq]
  simp

theorem climb_shared {fuel first last source : Nat} {prev : Option PrevState}
    (hshared : sharedWith 1 first last prev = some source) :
    climb agg target (fuel + 1) 1 first last prev [] = (prev, [.shared target source]) := by
  simp [climb,hshared]

/-- A row that does not share is what the next can share with, if the order does not matter. -/
theorem climb_prev_one {fuel first last : Nat} {prev : Option PrevState}
    (hshared : sharedWith 1 first last prev = none) :
    (climb agg target (fuel + 1) 1 first last prev []).1 =
      if agg.orderInsensitive then some ⟨target, first, last⟩ else prev := by
  simp only [climb,hshared,and_true]
  split
  · rfl
  · exact climb_prev ..

end Levels

end PredTrans.Window
