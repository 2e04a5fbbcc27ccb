import PredTrans.Compression.RleScan

/-! A run that reaches the limit of its counter is written at once, and the counter starts at zero
with the same value. A different value that comes next writes a run of count zero, which the reader
counts as one row unless it is the last of its segment. -/

namespace PredTrans.Compression.Rle
open RleCompressState
open List hiding count after

variable {T : Type*}

/-- The rows that runs stand for. -/
def expand (entries : List (T × Nat)) : List T :=
  entries.flatMap (fun e => List.replicate e.2 e.1)

@[simp]
theorem expand_nil : expand ([] : List (T × Nat)) = [] := rfl

@[simp]
theorem expand_append (l l' : List (T × Nat)) : expand (l ++ l') = expand l ++ expand l' :=
  flatMap_append

@[simp]
theorem expand_cons (e : T × Nat) (l : List (T × Nat)) :
    expand (e :: l) = List.replicate e.2 e.1 ++ expand l := flatMap_cons

@[simp]
theorem effective_append (l l' : List (T × Nat)) :
    effective (l ++ l') = effective l ++ effective l' := flatMap_append

theorem effective_eq_expand {entries : List (T × Nat)} (h : ∀ e ∈ entries, 0 < e.2) :
    effective entries = expand entries := by
  induction entries with
  | nil => rfl
  | cons e l ih =>
    have hmax : max e.2 1 = e.2 := max_eq_left (h e mem_cons_self)
    rw [effective,flatMap_cons,hmax,expand_cons]
    apply congrArg
    exact ih (forall_mem_cons.mp h).2

/-- Only the last run may be empty. -/
def RunsPositive (entries : List (T × Nat)) : Prop := ∀ e ∈ entries.dropLast, 0 < e.2

theorem RunsPositive.getElem? (h : RunsPositive entries) {i : Nat}
    (hv : (expand entries)[i]? = some v) : (effective entries)[i]? = some v := by
  rcases eq_nil_or_concat' entries with rfl | ⟨l,e,rfl⟩
  · simp at hv
  rw [RunsPositive,dropLast_concat] at h
  have hpre : List.replicate e.2 e.1 <+: List.replicate (max e.2 1) e.1 := by
    refine ⟨List.replicate (max e.2 1 - e.2) e.1,?_⟩
    rw [← replicate_add,Nat.add_sub_of_le (Nat.le_max_left ..)]
  have hwhole : expand (l ++ [e]) <+: effective (l ++ [e]) := by
    rw [expand_append,effective_append,effective_eq_expand h]
    simpa [effective] using hpre
  obtain ⟨rest,hrest⟩ := hwhole
  obtain ⟨hlt,-⟩ := List.getElem?_eq_some_iff.mp hv
  rw [← hrest,getElem?_append_left hlt,hv]

/-- The segments follow one another, and each counts its rows. -/
def Consecutive : Nat → List (RleSegment T) → Nat → Prop
  | a, [], b => a = b
  | a, s :: rest, b => s.start = a ∧ s.count = (expand s.entries).length ∧
      Consecutive (a + s.count) rest b

theorem consecutive_append :
    Consecutive a (l ++ l') b ↔ ∃ m, Consecutive a l m ∧ Consecutive m l' b := by
  induction l generalizing a with
  | nil => simp [Consecutive]
  | cons s l ih => simp [Consecutive,ih,and_assoc]

/-- The rows of a list of segments. -/
def contents (segments : List (RleSegment T)) : List T :=
  segments.flatMap (fun s => expand s.entries)

@[simp]
theorem contents_append (l l' : List (RleSegment T)) :
    contents (l ++ l') = contents l ++ contents l' := flatMap_append

@[simp]
theorem contents_cons (s : RleSegment T) (l : List (RleSegment T)) :
    contents (s :: l) = expand s.entries ++ contents l := flatMap_cons

@[simp]
theorem contents_nil : contents ([] : List (RleSegment T)) = [] := rfl

theorem Consecutive.length (h : Consecutive a segments b) :
    b = a + (contents segments).length ∧
      (segments.map RleSegment.count).sum = (contents segments).length := by
  induction segments generalizing a with
  | nil =>
    rw [Consecutive] at h
    simp [h]
  | cons s l ih =>
    obtain ⟨-,hcount,hrest⟩ := h
    obtain ⟨hb,hsum⟩ := ih hrest
    rw [map_cons,sum_cons,hsum,contents_cons,length_append,hb,hcount]
    omega

theorem Consecutive.count_eq (h : Consecutive a segments b) (hs : s ∈ segments) :
    s.count = (expand s.entries).length := by
  induction segments generalizing a with
  | nil => simp at hs
  | cons s' l ih =>
    obtain ⟨-,hcount,hrest⟩ := h
    rcases mem_cons.mp hs with rfl | hs
    · exact hcount
    · exact ih hrest hs

theorem Consecutive.getElem? (h : Consecutive a segments b) (hs : s ∈ segments) (hi : i < s.count) :
    a ≤ s.start ∧ (contents segments)[s.start - a + i]? = (expand s.entries)[i]? ∧
      i < (expand s.entries).length := by
  induction segments generalizing a with
  | nil => simp at hs
  | cons s' l ih =>
    obtain ⟨hstart,hcount,hrest⟩ := h
    rcases mem_cons.mp hs with rfl | hs
    · rw [hstart,Nat.sub_self,zero_add,contents_cons,← hcount]
      exact ⟨le_rfl,getElem?_append_left (hcount ▸ hi),hi⟩
    obtain ⟨hle,hget,hlt⟩ := ih hrest hs
    refine ⟨by omega,?_,hlt⟩
    rw [contents_cons,getElem?_append_right (by omega),← hget,← hcount]
    congr 1
    omega

/-- A value that was read is the stored one, or equal to it in the order of the type
(the two zeros of a floating point type). -/
def Same [BEq T] (a b : T) : Prop := a = b ∨ (a == b) = true

/-- What may be read for a row. -/
def Reads [BEq T] (v : T) (row : T × Bool) : Prop := row.2 = true → Same v row.1

namespace RleCompressState

variable {size : TypeSize} {c : RleCompressState T} {rowStart : Nat}

/-- All segments, the current one included. -/
def segments (c : RleCompressState T) : List (RleSegment T) := c.flushed ++ [c.current]

/-- The rows taken in so far. -/
def stored (c : RleCompressState T) : List T :=
  contents c.segments ++ List.replicate c.state.lastSeenCount c.state.lastValue

/-- The segments follow one another from `rowStart` on, with room in the current one. -/
structure Layout (size : TypeSize) (rowStart : Nat) (c : RleCompressState T) : Prop where
  consecutive : Consecutive rowStart c.segments (c.current.start + c.current.count)
  room : c.current.entries.length < maxRleCount size
  fits : ∀ s ∈ c.flushed, s.entries.length ≤ maxRleCount size

theorem maxRleCount_pos (size : TypeSize) : 0 < maxRleCount size := by
  cases size <;> decide

theorem Layout.current_count (h : Layout size rowStart c) :
    c.current.count = (expand c.current.entries).length := by
  obtain ⟨m,-,hm⟩ := consecutive_append.mp h.consecutive
  exact hm.2.1

theorem contents_flushSegment (h : c.current.count = (expand c.current.entries).length) :
    contents c.flushSegment = contents c.segments := by
  unfold flushSegment segments
  split
  · rename_i h0
    have : expand c.current.entries = [] := length_eq_zero_iff.mp (h ▸ h0)
    simp [this]
  · rfl

theorem consecutive_flushSegment (h : Consecutive rowStart c.segments b) :
    Consecutive rowStart c.flushSegment b := by
  unfold flushSegment
  split
  · rename_i h0
    obtain ⟨m,hm,hlast⟩ := consecutive_append.mp h
    obtain ⟨-,-,hb⟩ := hlast
    rw [h0,Consecutive,add_zero] at hb
    exact hb ▸ hm
  · exact h

/-- The state with one more run in its current segment. -/
def push (c : RleCompressState T) (value : T) (count : Nat) : RleCompressState T :=
  { c with current := { c.current with
    count := c.current.count + count
    entries := c.current.entries ++ [(value, count)] } }

theorem writeValue_eq (size : TypeSize) (c : RleCompressState T) (value : T) (count : Nat) :
    c.writeValue size value count =
      if c.current.entries.length + 1 = maxRleCount size then
        { c.push value count with
          flushed := (c.push value count).flushSegment
          current := .empty (c.current.start + (c.current.count + count)) }
      else c.push value count := by
  simp [writeValue,push]

@[simp]
theorem writeValue_state (size : TypeSize) (c : RleCompressState T) (value : T) (count : Nat) :
    (c.writeValue size value count).state = c.state := by
  rw [writeValue_eq]
  split <;> rfl

section

variable (h : Layout size rowStart c) (value : T) (count : Nat)
include h value count

theorem Layout.consecutive_push :
    Consecutive rowStart (c.push value count).segments
        (c.current.start + (c.current.count + count)) := by
  obtain ⟨m,hm,hstart,hcount,hend⟩ := consecutive_append.mp h.consecutive
  refine consecutive_append.mpr ⟨m,hm,hstart,?_,?_⟩
  · simp [push,hcount]
  · rw [Consecutive] at hend ⊢
    simp only [push]
    omega

theorem Layout.push_count :
    (c.push value count).current.count = (expand (c.push value count).current.entries).length := by
  simp [push,h.current_count]

theorem Layout.writeValue :
    Layout size rowStart (c.writeValue size value count) ∧
      contents (c.writeValue size value count).segments =
        contents c.segments ++ List.replicate count value := by
  have hpush : contents (c.push value count).segments =
      contents c.segments ++ List.replicate count value := by
    simp [push,segments]
  rw [writeValue_eq]
  split
  · rename_i hfull
    refine ⟨⟨?_,maxRleCount_pos size,?_⟩,?_⟩
    · refine consecutive_append.mpr ⟨_,consecutive_flushSegment (h.consecutive_push value count),?_⟩
      simp [Consecutive,RleSegment.empty]
    · intro s hs
      have hs : s ∈ (c.push value count).segments := by
        dsimp only [flushSegment] at hs
        split at hs
        · exact mem_append_left _ hs
        · exact hs
      rcases mem_append.mp hs with hs | hs
      · exact h.fits s hs
      · rw [mem_singleton.mp hs]
        simp [push,hfull]
    · rw [← hpush,← contents_flushSegment (h.push_count value count)]
      simp [segments,RleSegment.empty]
  · refine ⟨⟨h.consecutive_push value count,?_,h.fits⟩,hpush⟩
    have := h.room
    simp only [push,length_append,length_singleton]
    omega

end

theorem layout_initial (nullValue : T) (rowStart : Nat) :
    Layout size rowStart (initial nullValue rowStart) :=
  ⟨by simp [segments,initial,RleSegment.empty,Consecutive],maxRleCount_pos size,by simp [initial]⟩

theorem Layout.flush (h : Layout size rowStart c) :
    Layout size rowStart (c.flush size) ∧ contents (c.flush size).segments = c.stored :=
  h.writeValue c.state.lastValue c.state.lastSeenCount

theorem stored_succ (c : RleCompressState T) :
    stored { c with state := { c.state with lastSeenCount := c.state.lastSeenCount + 1 } } =
      c.stored ++ [c.state.lastValue] := by
  simp [stored,segments,replicate_succ']

theorem Layout.finalize (h : Layout size rowStart c) :
    Consecutive rowStart (c.finalize size) (rowStart + c.stored.length) ∧
      contents (c.finalize size) = c.stored := by
  obtain ⟨hl,hc⟩ := h.flush
  have hcontents : contents (c.finalize size) = c.stored :=
    (contents_flushSegment hl.current_count).trans hc
  have hcons := consecutive_flushSegment hl.consecutive
  refine ⟨?_,hcontents⟩
  rw [← hcontents]
  exact hcons.length.1 ▸ hcons

theorem mem_flushSegment (hs : s ∈ c.flushSegment) : s ∈ c.flushed ∨ s = c.current := by
  unfold flushSegment at hs
  split at hs
  · exact .inl hs
  · exact (mem_append.mp hs).imp_right mem_singleton.mp

theorem mem_finalize (hs : s ∈ c.finalize size) :
    s ∈ c.flushed ∨ s = (c.push c.state.lastValue c.state.lastSeenCount).current := by
  rw [finalize,flush,writeValue_eq] at hs
  split at hs
  · have hcount : (RleSegment.empty (T := T) (c.current.start +
        (c.current.count + c.state.lastSeenCount))).count = 0 := rfl
    rw [flushSegment,if_pos hcount] at hs
    exact mem_flushSegment hs
  · exact mem_flushSegment hs

/-- The written runs are read as they were meant. -/
structure Positive (c : RleCompressState T) : Prop where
  flushed : ∀ s ∈ c.flushed, RunsPositive s.entries
  current : ∀ e ∈ c.current.entries, 0 < e.2

theorem Positive.push_current (h : Positive c) (value : T) (count : Nat) :
    RunsPositive (c.push value count).current.entries := by
  simp only [RunsPositive,push,dropLast_concat]
  exact h.current

theorem Positive.writeValue (h : Positive c)
    (hpos : 0 < count ∨ c.current.entries.length + 1 = maxRleCount size) :
    Positive (c.writeValue size value count) := by
  rw [writeValue_eq]
  split
  · refine ⟨?_,by simp [RleSegment.empty]⟩
    intro s hs
    rcases mem_flushSegment hs with hs | rfl
    · exact h.flushed s hs
    · exact h.push_current value count
  · rename_i hfull
    refine ⟨h.flushed,?_⟩
    intro e he
    rcases mem_append.mp he with he | he
    · exact h.current e he
    · rw [mem_singleton.mp he]
      exact hpos.resolve_right hfull

theorem Positive.cut (h : Positive c) : Positive (c.cut size) := by
  unfold RleCompressState.cut
  split
  · rename_i hmax
    have hw : Positive (c.flush size) := h.writeValue (.inl (hmax ▸ by decide))
    exact ⟨hw.flushed,hw.current⟩
  · exact h

variable [BEq T]

/-- The rows taken in are the ones stored. -/
structure Holds (size : TypeSize) (rowStart : Nat) (c : RleCompressState T)
    (rows : List (T × Bool)) :
    Prop extends Layout size rowStart c where
  reads : List.Forall₂ Reads c.stored rows
  nulls : c.state.allNull = true → ∀ row ∈ rows, row.2 = false

theorem holds_initial (nullValue : T) (rowStart : Nat) :
    Holds size rowStart (initial nullValue rowStart) [] where
  toLayout := layout_initial nullValue rowStart
  reads := by
    rw [List.forall₂_nil_right_iff]
    simp [stored,segments,initial,RleSegment.empty]
  nulls := by simp

/-- What is stored for rows that are all NULL does not matter. -/
theorem forall₂_reads_of_nulls {rows : List (T × Bool)} (hlen : l.length = rows.length)
    (h : ∀ row ∈ rows, row.2 = false) : List.Forall₂ Reads l rows := by
  apply List.forall₂_iff_get.mpr
  refine ⟨hlen,?_⟩
  intro i _ hi hvalid
  rw [h _ (get_mem rows ⟨i,hi⟩)] at hvalid
  simp at hvalid

theorem Holds.append {rows : List (T × Bool)} (h : List.Forall₂ Reads l rows) (hv : Reads v row) :
    List.Forall₂ Reads (l ++ [v]) (rows ++ [row]) :=
  rel_append h (.cons hv .nil)

theorem Holds.take {rows : List (T × Bool)} (h : Holds size rowStart c rows) (row : T × Bool) :
    Holds size rowStart (c.take size row.1 row.2) (rows ++ [row]) := by
  unfold RleCompressState.take
  split
  · split
    · rename_i hnull
      refine ⟨{ h with },?_,by simp⟩
      -- the pending rows are all NULL, so the new value may stand for them
      have hlen := h.reads.length_eq
      have hsplit : stored { c with state := ⟨row.1,c.state.lastSeenCount + 1,false⟩ } =
          (contents c.segments ++ List.replicate c.state.lastSeenCount row.1) ++ [row.1] := by
        simp [stored,segments,replicate_succ']
      rw [hsplit]
      refine Holds.append (forall₂_reads_of_nulls ?_ (h.nulls hnull)) (fun _ => .inl rfl)
      simpa [stored] using hlen
    · rename_i hnull
      split
      · rename_i heq
        refine ⟨{ h with },?_,fun hn => absurd hn hnull⟩
        rw [stored_succ]
        exact Holds.append h.reads (fun _ => .inr heq)
      · obtain ⟨hl,hc⟩ := h.toLayout.flush
        refine ⟨{ hl with },?_,?_⟩
        · change List.Forall₂ Reads (contents (c.flush size).segments ++ [row.1]) (rows ++ [row])
          rw [hc]
          exact Holds.append h.reads (fun _ => .inl rfl)
        · intro hn
          exact absurd hn (by simpa [flush] using hnull)
  · rename_i hvalid
    refine ⟨{ h with },?_,?_⟩
    · rw [stored_succ]
      exact Holds.append h.reads (fun hv => absurd hv hvalid)
    intro hn row' hrow'
    rcases mem_append.mp hrow' with hrow' | hrow'
    · exact h.nulls hn row' hrow'
    · rw [mem_singleton.mp hrow']
      simpa using hvalid

theorem Holds.cut (h : Holds size rowStart c rows) : Holds size rowStart (c.cut size) rows := by
  unfold RleCompressState.cut
  split
  · obtain ⟨hl,hc⟩ := h.toLayout.flush
    refine ⟨{ hl with },?_,?_⟩
    · have hstored : stored { c.flush size with
          state := { (c.flush size).state with lastSeenCount := 0 } } =
          contents (c.flush size).segments := by
        simp [stored,segments]
      rw [hstored,hc]
      exact h.reads
    · intro hn
      exact h.nulls (by simpa [flush] using hn)
  · exact h

theorem Holds.update (h : Holds size rowStart c rows) (row : T × Bool) :
    Holds size rowStart (c.update size row) (rows ++ [row]) := (h.take row).cut

/-- The state after a list of rows. -/
def after (size : TypeSize) (nullValue : T) (rowStart : Nat) (rows : List (T × Bool)) :
    RleCompressState T :=
  rows.foldl (update size) (initial nullValue rowStart)

theorem after_append_singleton (size : TypeSize) (nullValue : T) (rowStart : Nat)
    (rows : List (T × Bool)) (row : T × Bool) :
    after size nullValue rowStart (rows ++ [row]) =
      (after size nullValue rowStart rows).update size row := by
  simp [after]

theorem holds_after (size : TypeSize) (nullValue : T) (rowStart : Nat) (rows : List (T × Bool)) :
    Holds size rowStart (after size nullValue rowStart rows) rows := by
  induction rows using List.reverseRecOn with
  | nil => exact holds_initial nullValue rowStart
  | append_singleton rows row ih =>
    rw [after_append_singleton]
    exact ih.update row

theorem compress_eq (size : TypeSize) (nullValue : T) (rowStart : Nat)
    (vectors : List (List (T × Bool))) :
    compress size nullValue rowStart vectors =
      (after size nullValue rowStart vectors.flatten).finalize size := by
  rw [compress,after,foldl_flatten]
  rfl

/-- Taking in the row writes an empty run that is not the last of its segment. -/
def WritesEmptyRun (size : TypeSize) (c : RleCompressState T) (row : T × Bool) : Prop :=
  row.2 = true ∧ c.state.allNull = false ∧ (c.state.lastValue == row.1) = false ∧
    c.state.lastSeenCount = 0 ∧ c.current.entries.length + 1 ≠ maxRleCount size

theorem Positive.take (h : Positive c) (hrow : ¬ WritesEmptyRun size c row) :
    Positive (c.take size row.1 row.2) := by
  unfold RleCompressState.take
  split
  · rename_i hvalid
    split
    · exact ⟨h.flushed,h.current⟩
    rename_i hnull
    split
    · exact ⟨h.flushed,h.current⟩
    rename_i hne
    have hpos : 0 < c.state.lastSeenCount ∨ c.current.entries.length + 1 = maxRleCount size := by
      by_contra! hcon
      refine hrow ⟨hvalid,?_,?_,Nat.le_zero.mp hcon.1,hcon.2⟩
      · simpa using hnull
      · simpa using hne
    have hw : Positive (c.flush size) := h.writeValue hpos
    exact ⟨hw.flushed,hw.current⟩
  · exact ⟨h.flushed,h.current⟩

/-- Some row of the input writes an empty run that is not the last of its segment. -/
def EmptyRun (size : TypeSize) (nullValue : T) (rowStart : Nat) (rows : List (T × Bool)) : Prop :=
  ∃ pre row post, rows = pre ++ row :: post ∧
    WritesEmptyRun size (after size nullValue rowStart pre) row

theorem positive_after {nullValue : T} (h : ¬ EmptyRun size nullValue rowStart rows) :
    Positive (after size nullValue rowStart rows) := by
  induction rows using List.reverseRecOn with
  | nil => exact ⟨by simp [after,initial],by simp [after,initial,RleSegment.empty]⟩
  | append_singleton rows row ih =>
    rw [after_append_singleton]
    refine (Positive.take (ih ?_) ?_).cut
    · intro hrun
      obtain ⟨pre,row',post,rfl,hw⟩ := hrun
      exact h ⟨pre,row',post ++ [row],by simp,hw⟩
    · intro hw
      exact h ⟨rows,row,[],rfl,hw⟩

end RleCompressState

open RleCompressState

variable {size : TypeSize} {nullValue : T} {rowStart : Nat}

theorem length_readCalls (s : RleSegment T) (st : RleScanState) (calls : List RleRead)
    (hw : st.Within s) : (readCalls s st calls).length = (calls.map RleRead.count).sum := by
  induction calls generalizing st with
  | nil => rfl
  | cons call calls ih =>
    cases call with
    | skip n =>
      obtain ⟨hw',-⟩ := RleScanState.skip_spec n hw
      simp [readCalls,ih _ hw',RleRead.count]
    | scanPartial n =>
      obtain ⟨hv,hw',-⟩ := RleScanState.scanPartialInternal_spec false n hw
      simp [readCalls,ih _ hw',hv,RleRead.count]
    | scan n =>
      obtain ⟨hv,hw',-⟩ := RleScanState.scanPartialInternal_spec true n hw
      simp [readCalls,ih _ hw',hv,RleRead.count]

/-- The segment that starts at row `a` has an empty run behind the runs `first`. -/
def Damaged (a : Nat) (first : List (T × Nat)) (gone v : T) (s : RleSegment T) : Prop :=
  s.start = a ∧ 0 < s.count ∧ ∃ k rest, s.entries = first ++ (gone, 0) :: (v, k + 1) :: rest

section Damage

variable {a : Nat} {first : List (T × Nat)} {gone v : T} {c : RleCompressState T}

/-- A damaged segment was written. -/
def Written (a : Nat) (first : List (T × Nat)) (gone v : T) (c : RleCompressState T) : Prop :=
  ∃ s ∈ c.segments, Damaged a first gone v s

/-- A damaged segment was written, or will be with the pending run. -/
def Harmed (a : Nat) (first : List (T × Nat)) (gone v : T) (c : RleCompressState T) : Prop :=
  Written a first gone v c ∨
    (c.current.start = a ∧ c.current.entries = first ++ [(gone, 0)] ∧ c.state.lastValue = v ∧
      0 < c.state.lastSeenCount ∧ c.state.allNull = false)

theorem written_flushSegment (h : Written a first gone v c) :
    ∃ s ∈ c.flushSegment, Damaged a first gone v s := by
  obtain ⟨s,hs,hd⟩ := h
  refine ⟨s,?_,hd⟩
  unfold flushSegment
  split
  · rcases mem_append.mp hs with hs | hs
    · exact hs
    · obtain ⟨-,hpos,-⟩ := hd
      rw [mem_singleton.mp hs] at hpos
      omega
  · exact hs

theorem written_of_push (h : Written a first gone v (c.push value count)) :
    Written a first gone v (c.writeValue size value count) := by
  rw [writeValue_eq]
  split
  · obtain ⟨s,hs,hd⟩ := written_flushSegment h
    exact ⟨s,mem_append_left _ hs,hd⟩
  · exact h

theorem Written.push (h : Written a first gone v c) (value : T) (count : Nat) :
    Written a first gone v (c.push value count) := by
  obtain ⟨s,hs,hd⟩ := h
  rcases mem_append.mp hs with hs | hs
  · exact ⟨s,mem_append_left _ hs,hd⟩
  rw [mem_singleton.mp hs] at hd
  obtain ⟨hstart,hpos,k,rest,he⟩ := hd
  refine ⟨_,mem_append_right _ (mem_singleton_self _),hstart,?_,k,rest ++ [(value, count)],?_⟩
  · simp only [RleCompressState.push]
    omega
  · simp [RleCompressState.push,he]

theorem Harmed.flush (h : Harmed a first gone v c) : Written a first gone v (c.flush size) := by
  apply written_of_push
  rcases h with h | ⟨hstart,he,hv,hpos,-⟩
  · exact h.push _ _
  obtain ⟨k,hk⟩ := Nat.exists_eq_succ_of_ne_zero hpos.ne'
  refine ⟨_,mem_append_right _ (mem_singleton_self _),hstart,?_,k,[],?_⟩
  · simp only [push]
    omega
  · simp [push,he,hv,hk]

theorem Harmed.cut (h : Harmed a first gone v c) : Harmed a first gone v (c.cut size) := by
  have hflush : Written a first gone v (c.flush size) := h.flush
  unfold RleCompressState.cut
  split
  · exact .inl hflush
  · exact h

variable [BEq T]

theorem Harmed.take (h : Harmed a first gone v c) (row : T × Bool) :
    Harmed a first gone v (c.take size row.1 row.2) := by
  have hflush : Written a first gone v (c.flush size) := h.flush
  unfold RleCompressState.take
  rcases h with h | ⟨hstart,he,hv,hpos,hnull⟩
  · split
    · split
      · exact .inl h
      · split
        · exact .inl h
        · exact .inl hflush
    · exact .inl h
  · split
    · rw [if_neg (by simp [hnull])]
      split
      · exact .inr ⟨hstart,he,hv,Nat.succ_pos _,hnull⟩
      · exact .inl hflush
    · exact .inr ⟨hstart,he,hv,Nat.succ_pos _,hnull⟩

theorem Harmed.foldl (h : Harmed a first gone v c) (rows : List (T × Bool)) :
    Harmed a first gone v (rows.foldl (update size) c) := by
  induction rows generalizing c with
  | nil => exact h
  | cons row rows ih => exact ih (h.take row).cut

theorem harmed_of_writesEmptyRun (h : WritesEmptyRun size c row) :
    Harmed c.current.start c.current.entries c.state.lastValue row.1 (c.update size row) := by
  obtain ⟨hvalid,hnull,hne,hzero,hroom⟩ := h
  apply Harmed.cut
  have hflush : c.flush size = c.push c.state.lastValue 0 := by
    rw [RleCompressState.flush,writeValue_eq,if_neg hroom,hzero]
  have htake : c.take size row.1 row.2 =
      { c.push c.state.lastValue 0 with state := ⟨row.1,1,false⟩ } := by
    simp [RleCompressState.take,hvalid,hnull,hne,hflush,RleCompressState.push]
  rw [htake]
  exact .inr ⟨rfl,rfl,rfl,one_pos,rfl⟩

end Damage

variable [BEq T]

/-- The value read back for a row, which is absent only if the reader left the segment. -/
def ReadsBack (v : Option T) (row : T × Bool) : Prop :=
    row.2 = true → ∃ a, v = some a ∧ Same a row.1

/-- Reading the segments gives back the input. -/
structure RoundTrips (size : TypeSize) (nullValue : T) (rowStart : Nat)
    (vectors : List (List (T × Bool))) : Prop where
  counts : ((compress size nullValue rowStart vectors).map RleSegment.count).sum =
    vectors.flatten.length
  calls : ∀ s ∈ compress size nullValue rowStart vectors, ∀ calls : List RleRead,
    (calls.map RleRead.count).sum ≤ s.count → ∀ (i : Nat) (v : Option T),
    (readCalls s .initial calls)[i]? = some (some v) →
    ∃ row, vectors.flatten[s.start - rowStart + i]? = some row ∧ ReadsBack v row
  fetch : ∀ s ∈ compress size nullValue rowStart vectors, ∀ i < s.count,
    ∃ row, vectors.flatten[s.start - rowStart + i]? = some row ∧ ReadsBack (fetchRow s i) row

/-- The row of the input that a position of a segment stands for. -/
theorem exists_row (hs : s ∈ (after size nullValue rowStart rows).finalize size)
    (hi : i < s.count) :
    ∃ v row, (expand s.entries)[i]? = some v ∧ rows[s.start - rowStart + i]? = some row ∧
        Reads v row := by
  have h := holds_after size nullValue rowStart rows
  obtain ⟨hcons,hcontents⟩ := h.toLayout.finalize
  obtain ⟨-,hget,hlt⟩ := hcons.getElem? hs hi
  have hv : (expand s.entries)[i]? = some ((expand s.entries)[i]) := getElem?_eq_getElem hlt
  rw [hcontents,hv] at hget
  obtain ⟨hk,hk'⟩ := List.getElem?_eq_some_iff.mp hget
  have hk2 := h.reads.length_eq ▸ hk
  refine ⟨_,_,hv,getElem?_eq_getElem hk2,?_⟩
  rw [← hk']
  exact (List.forall₂_iff_get.mp h.reads).2 _ hk hk2

theorem roundTrips_of_not_emptyRun {vectors : List (List (T × Bool))}
    (h : ¬ EmptyRun size nullValue rowStart vectors.flatten) :
    RoundTrips size nullValue rowStart vectors := by
  have hholds := holds_after size nullValue rowStart vectors.flatten
  have hpos := positive_after h
  have hruns : ∀ s ∈ compress size nullValue rowStart vectors, RunsPositive s.entries := by
    intro s hs
    rw [compress_eq] at hs
    rcases mem_finalize hs with hs | rfl
    · exact hpos.flushed s hs
    · exact hpos.push_current _ _
  have hread : ∀ s ∈ compress size nullValue rowStart vectors, ∀ i < s.count,
      ∃ row, vectors.flatten[s.start - rowStart + i]? = some row ∧
        ReadsBack (effective s.entries)[i]? row := by
    intro s hs i hi
    obtain ⟨v,row,hv,hrow,hr⟩ := exists_row (compress_eq size nullValue rowStart vectors ▸ hs) hi
    refine ⟨row,hrow,fun hvalid => ⟨v,(hruns s hs).getElem? hv,hr hvalid⟩⟩
  constructor
  · obtain ⟨hcons,hcontents⟩ := hholds.toLayout.finalize
    rw [compress_eq,hcons.length.2,hcontents,hholds.reads.length_eq]
  · intro s hs calls hcalls i v hv
    have hi : i < s.count := by
      have hlen := length_readCalls s .initial calls (RleScanState.within_initial s)
      obtain ⟨hlt,-⟩ := List.getElem?_eq_some_iff.mp hv
      omega
    have heq := readCalls_spec (RleScanState.within_initial s) hv
    rw [heq]
    exact hread s hs i hi
  · intro s hs i hi
    rw [fetchRow_spec]
    exact hread s hs i hi

theorem exists_first_emptyRun (h : EmptyRun size nullValue rowStart rows) :
    ∃ pre row post, rows = pre ++ row :: post ∧
      WritesEmptyRun size (after size nullValue rowStart pre) row ∧
      ¬ EmptyRun size nullValue rowStart pre := by
  obtain ⟨pre,row,post,hrows,hw⟩ := h
  generalize hn : pre.length = n
  induction n using Nat.strongRecOn generalizing pre row post with
  | ind n ih =>
    by_cases hpre : EmptyRun size nullValue rowStart pre
    · obtain ⟨pre',row',post',hpre',hw'⟩ := hpre
      refine ih pre'.length ?_ pre' row' (post' ++ row :: post) ?_ hw' rfl
      · rw [← hn,hpre']
        simp
      · rw [hrows,hpre']
        simp
    · exact ⟨pre,row,post,hrows,hw,hpre⟩

theorem not_roundTrips_of_emptyRun (hrefl : ∀ x : T, (x == x) = true)
    {vectors : List (List (T × Bool))}
    (h : EmptyRun size nullValue rowStart vectors.flatten) :
    ¬ RoundTrips size nullValue rowStart vectors := by
  intro hround
  obtain ⟨pre,row,post,hrows,hw,hfirst⟩ := exists_first_emptyRun h
  have hpos := positive_after hfirst
  have hholds := holds_after size nullValue rowStart pre
  generalize hc : after size nullValue rowStart pre = c at hw hpos hholds
  have hafter : after size nullValue rowStart vectors.flatten =
      post.foldl (update size) (c.update size row) := by
    rw [hrows,← hc]
    simp [after]
  obtain ⟨s,hs,hstart,-,k,rest,he⟩ :=
    written_flushSegment ((harmed_of_writesEmptyRun hw).foldl post).flush
  rw [← hafter] at hs
  obtain ⟨hcons,-⟩ := (holds_after size nullValue rowStart vectors.flatten).toLayout.finalize
  have hlt : c.current.count < s.count := by
    rw [hcons.count_eq hs,he,hholds.current_count]
    simp
  obtain ⟨hle,-⟩ := hcons.getElem? hs hlt
  have hindex : s.start - rowStart + c.current.count = pre.length := by
    have hend := hholds.consecutive.length.1
    have hlen := hholds.reads.length_eq
    simp only [stored,hw.2.2.2.1,replicate_zero,append_nil] at hlen
    omega
  -- the reader finds the value of the empty run at the position of the row
  have hfetch : fetchRow s c.current.count = some c.state.lastValue := by
    rw [fetchRow_spec,he,effective_append,effective_eq_expand hpos.current,hholds.current_count]
    simp [effective]
  obtain ⟨row',hrow',hread⟩ := hround.fetch s
    (compress_eq size nullValue rowStart vectors ▸ hs) _ hlt
  rw [hindex,hrows] at hrow'
  simp only [getElem?_append_right le_rfl,Nat.sub_self,getElem?_cons_zero,
    Option.some.injEq] at hrow'
  subst hrow'
  obtain ⟨x,hx,hsame⟩ := hread hw.1
  rw [hfetch,Option.some.injEq] at hx
  subst hx
  have hne := hw.2.2.1
  rcases hsame with heq | heq
  · rw [heq,hrefl] at hne
    simp at hne
  · rw [heq] at hne
    simp at hne

theorem after_replicate (size : TypeSize) (rowStart : Nat) (hn : n + 1 < rleCountMaximum) :
    after size (0 : Nat) rowStart (List.replicate (n + 1) (7, true)) =
      ⟨⟨7, n + 1, false⟩, [], .empty rowStart⟩ := by
  induction n with
  | zero => rfl
  | succ n ih =>
    rw [replicate_succ',after_append_singleton,ih (by omega)]
    have hne : n + 2 ≠ rleCountMaximum := by omega
    simp [update,RleCompressState.take,RleCompressState.cut,hne]

/-- A column of 65535 equal values and one more value, in vectors of 2048 rows. -/
def cutRun : List (List (Nat × Bool)) :=
  List.replicate 31 (List.replicate 2048 (7, true)) ++
    [List.replicate 2047 (7, true) ++ [(8, true)]]

theorem cutRun_flatten : cutRun.flatten = List.replicate 65535 (7, true) ++ [(8, true)] := by
  rw [cutRun,flatten_append,flatten_replicate_replicate,flatten_singleton,
    ← append_assoc,← replicate_add]

end PredTrans.Compression.Rle
