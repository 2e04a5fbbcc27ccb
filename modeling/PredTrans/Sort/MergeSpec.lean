import PredTrans.Sort.MergeSorter

/-! However the two slices are cut into blocks, `MergePartition` produces the merge of their rows,
with the right row first among equal keys. -/

namespace PredTrans.Sort
open List hiding next count

variable {α K : Type}

@[simp]
theorem flatten_moveToNextBlock (blocks : List (List α)) :
    (moveToNextBlock blocks).flatten = blocks.flatten := by
  unfold moveToNextBlock
  split <;> simp

theorem remaining_eq (blocks : List (List α)) : remaining blocks = blocks.flatten.length := by
  simp [remaining]

/-- How many more rounds a scan position is good for: two for each block, one for a block that is
used up. -/
def weight : List (List α) → Nat
  | [] => 0
  | [] :: blocks => 2 * blocks.length + 1
  | (_ :: _) :: blocks => 2 * blocks.length + 2

theorem weight_nil : weight ([] : List (List α)) = 0 := rfl

theorem weight_le (blocks : List (List α)) : weight blocks ≤ 2 * blocks.length := by
  unfold weight
  split
  · simp
  · simp only [length_cons]
    omega
  · simp
    omega

/-- After a move, whatever is left of the block weighs no more, and less if it is used up. -/
theorem weight_of_move (h : moveToNextBlock blocks = block :: rest) :
    (∀ left : List α, weight (left :: rest) ≤ weight blocks)
      ∧ weight ([] :: rest) < weight blocks := by
  have hleft : ∀ left : List α, weight (left :: rest) ≤ 2 * rest.length + 2 := by
    intro left
    cases left <;> simp [weight]
  unfold moveToNextBlock at h
  split at h
  · subst h
    refine ⟨fun left => (hleft left).trans ?_,?_⟩ <;> simp [weight]
  · subst h
    cases block with
    | nil => simp at *
    | cons a l => exact ⟨hleft,by simp [weight]⟩

variable [LinearOrder K] (key : α → K)

/-- The merge of two lists. -/
def merged (l r : List α) : List α := l.merge r fun a b => key a < key b

/-- Which side is smaller each time, for at most `count` rows and until a side is exhausted. -/
def decisions : Nat → List α → List α → List Bool
  | count + 1, a :: l, b :: r =>
    if key a < key b then true :: decisions count l (b :: r)
    else false :: decisions count (a :: l) r
  | _, _, _ => []

variable {key}

@[simp]
theorem decisions_zero (l r : List α) : decisions key 0 l r = [] := by simp [decisions]

@[simp]
theorem decisions_nil_left (count : Nat) (r : List α) : decisions key count [] r = [] := by
  cases count <;> simp [decisions]

@[simp]
theorem decisions_nil_right (count : Nat) (l : List α) : decisions key count l [] = [] := by
  cases count <;> cases l <;> simp [decisions]

@[simp]
theorem merged_nil_left (r : List α) : merged key [] r = r := by simp [merged]

@[simp]
theorem merged_nil_right (l : List α) : merged key l [] = l := by simp [merged]

theorem merged_cons_of_lt (h : key a < key b) (l r : List α) :
    merged key (a :: l) (b :: r) = a :: merged key l (b :: r) := by
  simp [merged,h]

theorem merged_cons_of_not_lt (h : ¬key a < key b) (l r : List α) :
    merged key (a :: l) (b :: r) = b :: merged key (a :: l) r := by
  simp [merged,h]

theorem compareBlocks_spec (key : α → K) (count : Nat) (lBlock rBlock l r : List α) :
    let s := compareBlocks key count lBlock rBlock
    decisions key count (lBlock ++ l) (rBlock ++ r)
        = s.1 ++ decisions key (count - s.1.length) (s.2.1 ++ l) (s.2.2 ++ r)
      ∧ (s.1.length = count ∨ s.2.1 = [] ∨ s.2.2 = []) := by
  induction count generalizing lBlock rBlock with
  | zero => simp [compareBlocks]
  | succ count ih =>
    cases lBlock with
    | nil => simp [compareBlocks]
    | cons a lBlock =>
      cases rBlock with
      | nil => simp [compareBlocks]
      | cons b rBlock =>
        by_cases hlt : key a < key b
        · simpa [compareBlocks,hlt,decisions] using ih lBlock (b :: rBlock)
        · simpa [compareBlocks,hlt,decisions] using ih (a :: lBlock) rBlock

theorem computeMerge_spec (hfuel : weight l + weight r < fuel) (count : Nat) :
    computeMerge key fuel count l r = decisions key count l.flatten r.flatten := by
  induction fuel generalizing count l r with
  | zero => omega
  | succ fuel ih =>
    by_cases hzero : count = 0
    · simp [computeMerge,hzero]
    simp only [computeMerge,hzero,if_false]
    rw [← flatten_moveToNextBlock l,← flatten_moveToNextBlock r]
    cases hl : moveToNextBlock l with
    | nil => simp
    | cons lBlock lRest =>
      cases hr : moveToNextBlock r with
      | nil => simp
      | cons rBlock rRest =>
        obtain ⟨hlWeight,hlEnd⟩ := weight_of_move hl
        obtain ⟨hrWeight,hrEnd⟩ := weight_of_move hr
        obtain ⟨hflags,hstop⟩ :=
          compareBlocks_spec key count lBlock rBlock lRest.flatten rRest.flatten
        rcases hrun : compareBlocks key count lBlock rBlock with ⟨flags,lLeft,rLeft⟩
        rw [hrun] at hflags hstop
        simp only [hrun,flatten_cons]
        rw [hflags]
        -- all rows were compared, or one of the blocks is used up
        rcases hstop with hall | rfl | rfl
        · rw [hall,Nat.sub_self,decisions_zero]
          cases fuel <;> simp [computeMerge]
        · have := hrWeight rLeft
          rw [ih (by omega)]
          simp
        · have := hlWeight lLeft
          rw [ih (by omega)]
          simp

/-- The computed merge is what merging the next `count` rows needs. -/
def Ready (key : α → K) (leftSmaller : List Bool) (count : Nat) (l r : List α) : Prop :=
  l ≠ [] → r ≠ [] → leftSmaller = decisions key count l r

theorem mergeRows_spec (hnext : next ≤ count) {flags : List Bool} {lBlock rBlock l r : List α}
    (hready : Ready key flags count (lBlock ++ l) (rBlock ++ r)) :
    let s := mergeRows next flags lBlock rBlock
    merged key (lBlock ++ l) (rBlock ++ r) = s.1 ++ merged key (s.2.1 ++ l) (s.2.2 ++ r)
      ∧ Ready key (flags.drop s.1.length) (count - s.1.length) (s.2.1 ++ l) (s.2.2 ++ r)
      ∧ s.1.length ≤ next ∧ (s.1.length = next ∨ s.2.1 = [] ∨ s.2.2 = []) := by
  induction next generalizing count flags lBlock rBlock with
  | zero => simpa [mergeRows] using hready
  | succ next ih =>
    cases lBlock with
    | nil => simpa [mergeRows] using hready
    | cons a lBlock =>
      cases rBlock with
      | nil => simpa [mergeRows] using hready
      | cons b rBlock =>
        obtain ⟨count,rfl⟩ : ∃ c, count = c + 1 := ⟨count - 1,by omega⟩
        have hflags := hready (by simp) (by simp)
        by_cases hlt : key a < key b
        · simp only [cons_append,decisions,hlt,if_true] at hflags
          subst hflags
          have hrest := @ih count (by omega) (decisions key count (lBlock ++ l)
            (b :: (rBlock ++ r))) lBlock (b :: rBlock) fun _ _ => rfl
          simp only [mergeRows,if_true,cons_append,merged_cons_of_lt hlt]
          simpa using hrest
        · simp only [cons_append,decisions,hlt,if_false] at hflags
          subst hflags
          have hrest := @ih count (by omega) (decisions key count (a :: (lBlock ++ l))
            (rBlock ++ r)) (a :: lBlock) rBlock fun _ _ => rfl
          simp only [mergeRows,cons_append,merged_cons_of_not_lt hlt]
          simpa using hrest

/-- What `MergeRadix` guarantees: the copied rows are the next ones of the merge. -/
structure Merges (key : α → K) (count : Nat) (l r : List (List α)) (c : Copied α) : Prop where
  rows : merged key l.flatten r.flatten = c.rows ++ merged key c.left.flatten c.right.flatten
  length : c.rows.length = count

theorem mergeRadix_zero (hfuel : 0 < fuel) (room : Nat) (flags : List Bool) (l r : List (List α)) :
    mergeRadix fuel 0 room flags l r = some ⟨[], l, r⟩ := by
  obtain ⟨fuel,rfl⟩ : ∃ f, fuel = f + 1 := ⟨fuel - 1,by omega⟩
  simp [mergeRadix]

/-- One more piece in front of a merge. -/
theorem Merges.prepend
    (hrows : merged key l.flatten r.flatten = copied ++ merged key l'.flatten r'.flatten)
    (hle : copied.length ≤ count) (h : Merges key (count - copied.length) l' r' c) :
    Merges key count l r { c with rows := copied ++ c.rows } where
  rows := by simp [hrows,h.rows]
  length := by simp [h.length]; omega

/-- `FlushRows` copies all that is asked for or uses up the block. -/
theorem flush_spec (count : Nat) (block : List α) (rest : List (List α))
    (hend : weight ([] :: rest) < w) :
    (block :: rest).flatten = block.take count ++ (block.drop count :: rest).flatten
      ∧ (block.take count).length ≤ count
      ∧ ((block.take count).length = count ∨ weight (block.drop count :: rest) < w) := by
  refine ⟨by simp [← append_assoc],by simp,?_⟩
  by_cases hlen : count ≤ block.length
  · exact .inl (by simpa using hlen)
  · rw [drop_eq_nil_of_le (by omega)]
    exact .inr hend

theorem mergeRadix_spec {l r : List (List α)} (hfuel : weight l + weight r < fuel)
    (hroom : count ≤ room) (hcount : count ≤ l.flatten.length + r.flatten.length)
    (hready : Ready key flags count l.flatten r.flatten) :
    ∃ c, mergeRadix fuel count room flags l r = some c ∧ Merges key count l r c := by
  induction fuel generalizing count room flags l r with
  | zero => omega
  | succ fuel ih =>
    by_cases hzero : count = 0
    · subst hzero
      exact ⟨⟨[],l,r⟩,mergeRadix_zero (Nat.succ_pos _) _ _ _ _,by simp,rfl⟩
    -- the rest of the loop after a piece was copied and left the scan at l' and r'
    have hrest : ∀ (copied : List α) (l' r' : List (List α)), copied.length ≤ count →
        merged key l.flatten r.flatten = copied ++ merged key l'.flatten r'.flatten →
        Ready key (flags.drop copied.length) (count - copied.length) l'.flatten r'.flatten →
        0 < fuel → (copied.length = count ∨ weight l' + weight r' < fuel) →
        ∃ c, ((mergeRadix fuel (count - copied.length) (room - copied.length)
          (flags.drop copied.length) l' r').bind fun c => some { c with rows :=
            copied ++ c.rows }) =
            some c ∧ Merges key count l r c := by
      intro copied l' r' hle hrows hready' hpos hdone
      have hlen := congrArg List.length hrows
      simp only [merged,length_merge,length_append] at hlen
      rcases hdone with hall | hweight
      · rw [hall,Nat.sub_self,mergeRadix_zero hpos]
        refine ⟨_,rfl,Merges.prepend hrows hle ?_⟩
        exact ⟨by simp,by simp [hall]⟩
      · obtain ⟨c,hc,hmerges⟩ := @ih (count - copied.length) (room - copied.length) _ _ _ hweight
          (by omega) (by omega) hready'
        exact ⟨_,by rw [hc,Option.bind_some],Merges.prepend hrows hle hmerges⟩
    have hmin : min count room = count := by omega
    simp only [mergeRadix,hzero,if_false,hmin]
    rw [← flatten_moveToNextBlock l,← flatten_moveToNextBlock r] at hrest hready
    rw [← flatten_moveToNextBlock l,← flatten_moveToNextBlock r] at hcount
    cases hl : moveToNextBlock l with
    | nil =>
      rw [hl] at hrest hready hcount
      cases hr : moveToNextBlock r with
      | nil =>
        rw [hr] at hcount
        simp at hcount
        omega
      | cons rBlock rRest =>
        have hend := (weight_of_move hr).2
        obtain ⟨hrows,hle,hdone⟩ := flush_spec count rBlock rRest hend
        rw [hr] at hrest
        exact hrest (rBlock.take count) [] (rBlock.drop count :: rRest) hle (by simpa using hrows)
          (fun h => absurd rfl h) (by omega) (hdone.imp id fun h => by rw [weight_nil]; omega)
    | cons lBlock lRest =>
      rw [hl] at hrest hready
      obtain ⟨hlWeight,hlEnd⟩ := weight_of_move hl
      cases hr : moveToNextBlock r with
      | nil =>
        obtain ⟨hrows,hle,hdone⟩ := flush_spec count lBlock lRest hlEnd
        rw [hr] at hrest
        exact hrest (lBlock.take count) (lBlock.drop count :: lRest) [] hle (by simpa using hrows)
          (fun _ h => absurd rfl h) (by omega) (hdone.imp id fun h => by rw [weight_nil]; omega)
      | cons rBlock rRest =>
        rw [hr] at hrest hready
        obtain ⟨hrWeight,hrEnd⟩ := weight_of_move hr
        obtain ⟨hrows,hready',hle,hdone⟩ := mergeRows_spec (le_refl count) hready
        rcases hrun : mergeRows count flags lBlock rBlock with ⟨copied,lLeft,rLeft⟩
        rw [hrun] at hrows hready' hle hdone
        dsimp only
        rw [hrun]
        refine hrest copied (lLeft :: lRest) (rLeft :: rRest) hle hrows hready' (by omega) ?_
        rcases hdone with hall | rfl | rfl
        · exact .inl hall
        · have := hrWeight rLeft
          exact .inr (by omega)
        · have := hlWeight lLeft
          exact .inr (by omega)

theorem mergePartition_spec (hvector : 0 < vectorSize)
    (hfuel : l.flatten.length + r.flatten.length < fuel)
    (hcapacity : written + (l.flatten.length + r.flatten.length) ≤ capacity) :
    mergePartition key vectorSize capacity fuel written flags l r
      = some (merged key l.flatten r.flatten) := by
  induction fuel generalizing written flags l r with
  | zero => omega
  | succ fuel ih =>
    simp only [mergePartition,remaining_eq]
    by_cases hzero : l.flatten.length + r.flatten.length = 0
    · have hl : l.flatten = [] := length_eq_zero_iff.mp (by omega)
      have hr : r.flatten = [] := length_eq_zero_iff.mp (by omega)
      simp [hl,hr]
    rw [if_neg hzero]
    have hsteps : weight l + weight r < 2 * (l.length + r.length) + 1 := by
      have := weight_le l
      have := weight_le r
      omega
    have hready : Ready key (if l.flatten.length ≠ 0 ∧ r.flatten.length ≠ 0 then
        computeMerge key (2 * (l.length + r.length) + 1)
          (min (l.flatten.length + r.flatten.length) vectorSize) l r else flags)
        (min (l.flatten.length + r.flatten.length) vectorSize) l.flatten r.flatten := by
      intro hl hr
      have hboth : l.flatten.length ≠ 0 ∧ r.flatten.length ≠ 0 :=
        ⟨fun h => hl (length_eq_zero_iff.mp h),fun h => hr (length_eq_zero_iff.mp h)⟩
      rw [if_pos hboth,computeMerge_spec hsteps]
    have hroom : min (l.flatten.length + r.flatten.length) vectorSize ≤ capacity - written := by
      omega
    obtain ⟨c,hc,hmerges⟩ := mergeRadix_spec hsteps hroom (Nat.min_le_left _ _) hready
    have hlen := congrArg List.length hmerges.rows
    simp only [merged,length_merge,length_append] at hlen
    have hcopied := hmerges.length
    simp only [hc,Option.bind_eq_bind,Option.bind_some]
    rw [ih (by omega) (by omega),hmerges.rows]
    rfl

end PredTrans.Sort
