import PredTrans.Index.ArtIterator
import PredTrans.Index.ArtOperations

/-!
The iterator walks over the leaves in the order of their keys. What is left to visit is read off
the stack; every step of the iterator takes the first of these leaves, and seeking a lower bound
leaves exactly those that satisfy it.
-/

namespace PredTrans.Index

open Library List Node WordMap

/-- The key of a leaf, from some node on, and its row ids. -/
abbrev Entry := List Byte × List RowId

/-- An entry seen from further up the tree. -/
def prepend (path : List Byte) (entry : Entry) : Entry := (path ++ entry.1, entry.2)

theorem map_prepend_nil (l : List Entry) : l.map (prepend []) = l := map_id l

theorem map_prepend_prepend (p q : List Byte) (l : List Entry) :
    (l.map (prepend q)).map (prepend p) = l.map (prepend (p ++ q)) := by
  simp [prepend]

namespace Node

/-- The leaves below a node in the order of their bytes. -/
def entries : Node → List Entry
  | empty => []
  | prefixed data next => next.entries.map (prepend data)
  | leafInlined rowId => [([], [rowId])]
  | leaf segments => [([], segments.flatten)]
  | inner layout children => (List.finRange 256).flatMap fun byte =>
    match layout.slot children byte with
    | some i => (children i).entries.map (prepend [byte])
    | none => []

/-- The leaves below the child at a byte. -/
def entriesAt (layout : Layout) (children : Nat → Node) (byte : Byte) : List Entry :=
  match layout.slot children byte with
  | some i => (children i).entries.map (prepend [byte])
  | none => []

/-- The leaves below the children from a byte on. -/
def entriesFrom (layout : Layout) (children : Nat → Node) (start : Nat) : List Entry :=
  ((List.finRange 256).drop start).flatMap (entriesAt layout children)

variable {layout : Layout} {children : Nat → Node}

theorem entries_inner (layout : Layout) (children : Nat → Node) :
    (inner layout children).entries = entriesFrom layout children 0 := by
  unfold entries entriesFrom
  rw [drop_zero]
  rfl

theorem entriesFrom_step (h : start < 256) :
    entriesFrom layout children start =
      entriesAt layout children ⟨start, h⟩ ++ entriesFrom layout children (start + 1) := by
  have hlen : start < (List.finRange 256).length := by simpa using h
  simp [entriesFrom,drop_eq_getElem_cons hlen]

theorem entriesFrom_end : entriesFrom layout children 256 = [] := by
  have hdrop : (List.finRange 256).drop 256 = [] := drop_eq_nil_of_le (by simp)
  simp [entriesFrom,hdrop]

/-- Bytes without a child are passed over. -/
theorem entriesFrom_skip (hle : start ≤ stop) (hstop : stop ≤ 256)
    (h : ∀ x : Byte, start ≤ x.val → x.val < stop → layout.slot children x = none) :
    entriesFrom layout children start = entriesFrom layout children stop := by
  induction hle with
  | refl => rfl
  | @step m hle ih =>
    have hm : m < 256 := hstop
    rw [ih hm.le fun x hx hlt => h x hx (Nat.lt_succ_of_lt hlt),entriesFrom_step hm]
    simp [entriesAt,h ⟨m,hm⟩ hle (Nat.lt_succ_self m)]

theorem entriesFrom_some (hvalid : layout.Valid children)
    (h : layout.getNextChild children byte = some (b, i)) :
    entriesFrom layout children byte.val =
      (children i).entries.map (prepend [b]) ++ entriesFrom layout children (b.val + 1) := by
  obtain ⟨hle,hslot,hskip⟩ := Layout.getNextChild_some hvalid h
  rw [entriesFrom_skip hle b.isLt.le fun x hx hlt => hskip x hx hlt,
    entriesFrom_step b.isLt]
  simp [entriesAt,hslot]

theorem entriesFrom_none (h : layout.getNextChild children byte = none) :
    entriesFrom layout children byte.val = [] := by
  rw [entriesFrom_skip byte.isLt.le (Nat.le_refl 256)
    fun x hx _ => Layout.getNextChild_none h hx,entriesFrom_end]

theorem mem_entriesFrom :
    entry ∈ entriesFrom layout children start ↔
      ∃ byte : Byte, start ≤ byte.val ∧ ∃ i, layout.slot children byte = some i ∧
        entry ∈ (children i).entries.map (prepend [byte]) := by
  have hdrop : ∀ byte : Byte, byte ∈ (List.finRange 256).drop start ↔ start ≤ byte.val := by
    intro byte
    rw [mem_drop_iff_getElem]
    constructor
    · intro ⟨i,hi,heq⟩
      simp [← heq]
    intro hle
    refine ⟨byte.val - start,by simp; omega,?_⟩
    apply Fin.ext
    simp
    omega
  simp only [entriesFrom,mem_flatMap,hdrop]
  constructor
  · intro ⟨byte,hle,hmem⟩
    refine ⟨byte,hle,?_⟩
    cases hslot : layout.slot children byte with
    | none => simp [entriesAt,hslot] at hmem
    | some i => exact ⟨i,rfl,by simpa [entriesAt,hslot] using hmem⟩
  · intro ⟨byte,hle,i,hslot,hmem⟩
    exact ⟨byte,hle,by simpa [entriesAt,hslot] using hmem⟩

theorem mem_leaf_entries {w : List Byte} {rowIds : List RowId} (hne : rowIds ≠ []) :
    (w, ids) ∈ [([], rowIds)] ↔ ids = single [] rowIds w ∧ ids ≠ [] := by
  rw [mem_singleton,Prod.mk.injEq]
  by_cases hw : w = []
  · rw [hw,single,Function.update_self]
    exact ⟨fun h => ⟨h.2,h.2 ▸ hne⟩,fun h => ⟨rfl,h.1⟩⟩
  · simp [hw,WordMap.single,WordMap.empty]

theorem mem_entries {node : Node} (hwf : node.Wf) :
    (w, ids) ∈ node.entries ↔ ids = node.rows w ∧ ids ≠ [] := by
  induction node generalizing w with
  | empty => simp [entries,rows,WordMap.empty]
  | prefixed data next ih =>
    constructor
    · intro hmem
      obtain ⟨e,he,heq⟩ := mem_map.mp hmem
      obtain ⟨rfl,rfl⟩ := Prod.mk.inj heq
      simpa [rows] using (ih hwf.2.2.2).mp he
    · rintro ⟨heq,hne⟩
      rw [heq] at hne
      obtain ⟨v,rfl,_⟩ := exists_of_under hne
      refine mem_map.mpr ⟨(v, ids),(ih hwf.2.2.2).mpr ⟨?_,heq ▸ hne⟩,rfl⟩
      simpa [rows] using heq
  | leafInlined rowId => exact mem_leaf_entries (cons_ne_nil _ _)
  | leaf segments => exact mem_leaf_entries (ne_nil_of_length_pos (SegmentsWf.length_pos hwf))
  | inner layout children ih =>
    rw [entries_inner,mem_entriesFrom,rows_inner]
    constructor
    · rintro ⟨byte,_,i,hslot,hmem⟩
      obtain ⟨e,he,heq⟩ := mem_map.mp hmem
      obtain ⟨rfl,rfl⟩ := Prod.mk.inj heq
      simpa [route,childRows_some hslot] using (ih i (hwf.2.2 byte i hslot)).mp he
    rintro ⟨heq,hne⟩
    cases w with
    | nil => exact absurd heq hne
    | cons byte w =>
      cases hslot : layout.slot children byte with
      | none =>
        simp only [route,childRows_none hslot] at heq
        exact absurd heq hne
      | some i =>
        simp only [route,childRows_some hslot] at heq
        refine ⟨byte,Nat.zero_le _,i,hslot,?_⟩
        exact mem_map.mpr ⟨(w, ids),(ih i (hwf.2.2 byte i hslot)).mpr ⟨heq,hne⟩,rfl⟩

theorem pairwise_map_prepend {l : List Entry} (h : l.Pairwise fun a b => a.1 < b.1) :
    (l.map (prepend path)).Pairwise fun a b => a.1 < b.1 :=
  pairwise_map.mpr (h.imp fun hab => append_left_lt hab)

theorem entries_ascending (node : Node) : node.entries.Pairwise fun a b => a.1 < b.1 := by
  induction node with
  | empty => exact List.Pairwise.nil
  | prefixed data next ih => exact pairwise_map_prepend ih
  | leafInlined rowId | leaf segments => exact pairwise_singleton _ _
  | inner layout children ih =>
    rw [entries_inner]
    apply pairwise_flatMap.mpr
    constructor
    · intro byte _
      cases hslot : layout.slot children byte with
      | none => simp [entriesAt,hslot]
      | some i =>
        simp only [entriesAt,hslot]
        exact pairwise_map_prepend (ih i)
    simp only [drop_zero]
    apply (pairwise_lt_finRange 256).imp
    intro a b hab x hx y hy
    cases hsa : layout.slot children a with
    | none => simp [entriesAt,hsa] at hx
    | some i =>
      cases hsb : layout.slot children b with
      | none => simp [entriesAt,hsb] at hy
      | some j =>
        simp only [entriesAt,hsa] at hx
        simp only [entriesAt,hsb] at hy
        obtain ⟨x',_,rfl⟩ := mem_map.mp hx
        obtain ⟨y',_,rfl⟩ := mem_map.mp hy
        exact cons_lt_cons_iff.mpr (.inl hab)

end Node

namespace Iterator

/-- The leaves that are left to visit behind the current one: at each inner node of the stack
those of the later bytes. -/
def pending : List (Node × Byte) → List Byte → List Entry
  | [], _ => []
  | (.prefixed data _, _) :: rest, currentKey =>
    pending rest (currentKey.take (currentKey.length - data.length))
  | (.inner layout children, byte) :: rest, currentKey =>
    (entriesFrom layout children (byte.val + 1)).map (prepend currentKey.dropLast) ++
      pending rest currentKey.dropLast
  | _ :: rest, currentKey => pending rest currentKey.dropLast

/-- The current leaf with its key, then the leaves that are left. -/
def remaining (it : Iterator) : List Entry :=
  (it.currentKey, it.lastLeaf.rowIds) :: pending it.nodes it.currentKey

/-- All inner nodes of the stack are valid. -/
def StackWf (nodes : List (Node × Byte)) : Prop := ∀ frame ∈ nodes, frame.1.Wf

/-- The result of a step towards the first of the leaves. -/
structure Yields (result : Bool × Iterator) (target : List Entry) : Prop where
  stack : StackWf result.2.nodes
  none_left : result.1 = false → target = []
  first : result.1 = true → target = result.2.remaining

theorem pending_prefixed (data : List Byte) (next : Node) (byte : Byte)
    (rest : List (Node × Byte)) (path : List Byte) :
    pending ((.prefixed data next, byte) :: rest) (path ++ data) = pending rest path := by
  simp [pending]

theorem pending_inner (layout : Layout) (children : Nat → Node) (byte : Byte)
    (rest : List (Node × Byte)) (path : List Byte) :
    pending ((.inner layout children, byte) :: rest) (path ++ [byte]) =
      (entriesFrom layout children (byte.val + 1)).map (prepend path) ++
        pending rest path := by
  simp [pending]

/-- The minimum of a tree is the first of its leaves, and the others are left. -/
theorem findMinimum_spec {node : Node} (hwf : node.Wf) (hne : node ≠ .empty) {it : Iterator}
    (hstack : StackWf it.nodes) :
    Yields (true, findMinimum node it)
      (node.entries.map (prepend it.currentKey) ++ pending it.nodes it.currentKey) := by
  induction node generalizing it with
  | empty => exact absurd rfl hne
  | leafInlined rowId | leaf segments =>
    exact ⟨hstack,by simp,fun _ => by simp [entries,findMinimum,remaining,prepend,
      Node.rowIds]⟩
  | prefixed data next ih =>
    have hpush : StackWf (it.push data (.prefixed data next) 0).nodes :=
      forall_mem_cons.mpr ⟨hwf,hstack⟩
    have hnext := ih hwf.2.2.2 hwf.2.2.1 hpush
    simp only [push,pending_prefixed] at hnext
    rw [entries,map_prepend_prepend]
    simpa [findMinimum,push] using hnext
  | inner layout children ih =>
    cases hget : layout.getNextChild children 0 with
    | none =>
      obtain ⟨w,hw⟩ := exists_rows hwf hne
      have hmem := (mem_entries hwf).mpr ⟨rfl,hw⟩
      rw [entries_inner,show (0 : Nat) = (0 : Byte).val from rfl,
        entriesFrom_none hget] at hmem
      cases hmem
    | some found =>
      obtain ⟨byte,i⟩ := found
      have hslot := (Layout.getNextChild_some hwf.1 hget).2.1
      have hchild := child_ne_empty hwf.1 hslot
      have hpush : StackWf (it.push [byte] (.inner layout children) byte).nodes :=
        forall_mem_cons.mpr ⟨hwf,hstack⟩
      have hmin := ih i (hwf.2.2 byte i hslot) hchild hpush
      simp only [push,pending_inner] at hmin
      have hentries := entriesFrom_some hwf.1 hget
      rw [entries_inner,show (0 : Nat) = (0 : Byte).val from rfl,hentries,
        map_append,map_prepend_prepend,append_assoc]
      simpa [findMinimum,hget,push] using hmin

/-- A step goes to the first leaf that is left. -/
theorem nextLoop_spec (lastLeaf : Node) {nodes : List (Node × Byte)} (hstack : StackWf nodes)
    (currentKey : List Byte) :
    Yields (nextLoop lastLeaf nodes currentKey) (pending nodes currentKey) := by
  induction nodes generalizing currentKey with
  | nil => exact ⟨by simp [StackWf,nextLoop],fun _ => rfl,by simp [nextLoop]⟩
  | cons frame rest ih =>
    obtain ⟨hwf,hrest⟩ := forall_mem_cons.mp hstack
    obtain ⟨node,byte⟩ := frame
    cases node with
    | prefixed data next | empty | leafInlined rowId | leaf segments => exact ih hrest _
    | inner layout children =>
      by_cases hlast : byte.val + 1 < 256
      · cases hget : layout.getNextChild children ⟨byte.val + 1,hlast⟩ with
        | none =>
          have hnone := entriesFrom_none hget
          simpa [nextLoop,hget,pending,hnone] using ih hrest currentKey.dropLast
        | some found =>
          obtain ⟨b,i⟩ := found
          have hslot := (Layout.getNextChild_some hwf.1 hget).2.1
          have hchild := child_ne_empty hwf.1 hslot
          have hstack' : StackWf ((.inner layout children, b) :: rest) :=
            forall_mem_cons.mpr ⟨hwf,hrest⟩
          have hmin := @findMinimum_spec (children i) (hwf.2.2 b i hslot) hchild
            ⟨(.inner layout children, b) :: rest,currentKey.dropLast ++ [b],lastLeaf⟩ hstack'
          simp only [pending_inner] at hmin
          have hentries := entriesFrom_some hwf.1 hget
          simp only [nextLoop,hlast,dif_pos,hget,pending]
          rw [show byte.val + 1 = (⟨byte.val + 1,hlast⟩ : Byte).val from rfl,hentries,
            map_append,map_prepend_prepend,append_assoc]
          exact hmin
      · have hend : byte.val + 1 = 256 := by
          omega
        simpa [nextLoop,pending,hend,entriesFrom_end] using
          ih hrest currentKey.dropLast

theorem next_spec {it : Iterator} (hstack : StackWf it.nodes) :
    Yields it.next (pending it.nodes it.currentKey) :=
  nextLoop_spec it.lastLeaf hstack it.currentKey

end Iterator

end PredTrans.Index
