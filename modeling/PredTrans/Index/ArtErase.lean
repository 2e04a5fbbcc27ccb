import PredTrans.Index.ArtOperations

/-!
Erasing a row id on the contents of a tree: the row ids of the key change as `removeRow` says,
and a key whose last row id goes leaves the tree, with the node above it shrunk or merged into
the prefix.
-/

namespace PredTrans.Index.Node

open Library List Function WordMap Layout

variable {key : ArtKey} {node : Node} {depth : Nat}

theorem appendBytes_ne_empty (data bytes : List Byte) (next : Node) :
    appendBytes data bytes next ≠ empty := by
  induction bytes generalizing data with
  | nil => simp [appendBytes]
  | cons byte bytes ih =>
    unfold appendBytes
    split
    · simp
    · exact ih _

theorem wrap_ne_empty (chain : List (List Byte)) (hne : node ≠ empty) :
    wrap chain node ≠ empty := by
  cases chain with
  | nil => exact hne
  | cons data chain => simp [wrap]

theorem concatenate_ne_empty (chain : List (List Byte)) (byte : Byte) (child : Node) :
    concatenate chain byte child ≠ empty := by
  unfold concatenate
  split
  · exact wrap_ne_empty _ (appendBytes_ne_empty _ _ _)
  · exact appendBytes_ne_empty _ _ _

theorem deleteChild_ne_empty (chain : List (List Byte)) (layout : Layout)
    (children : Nat → Node) (byte : Byte) : deleteChild chain layout children byte ≠ empty := by
  unfold deleteChild
  split
  · exact concatenate_ne_empty _ _ _
  · exact wrap_ne_empty _ (by simp)

theorem deleteChild_eq_wrap (chain : List (List Byte)) (children : Nat → Node) (byte : Byte)
    (h : ∀ n key, layout = .node4 n key → 3 ≤ n) :
    deleteChild chain layout children byte =
      wrap chain (inner (layout.deleteChild children byte).1
        (layout.deleteChild children byte).2) := by
  cases layout with
  | node4 n key =>
    obtain ⟨m,rfl⟩ := Nat.exists_eq_add_of_le' (h n key rfl)
    rfl
  | node16 | node48 | node256 => rfl

theorem minCount_of_three_le (hwf : (inner layout children).Wf)
    (hchild : layout.getChild children byte = some child)
    (h : ∀ n key, layout = .node4 n key → 3 ≤ n) :
    (layout.deleteChild children byte).1.minCount ≤
      (layout.deleteChild children byte).1.count := by
  cases layout with
  | node4 n key =>
    have hn := h n key rfl
    exact Nat.le_sub_of_add_le hn
  | node16 | node48 | node256 =>
    exact minCount_deleteChild hwf.1 hchild hwf.2.1 (by simp)

/-- The child at the byte is gone; the rest of the tree is as before. -/
theorem deleteChild_spec (hchain : ChainWf chain) (hwf : (inner layout children).Wf)
    (hchild : layout.getChild children byte = some child) :
    (deleteChild chain layout children byte).Wf ∧
      (deleteChild chain layout children byte).rows = under chain.flatten
        (WordMap.route (update (childRows layout children) byte WordMap.empty)) := by
  have hholds := deleteChild_holds hwf.1 hchild
  have hrows := rows_holds hholds
  by_cases hmany : ∀ n key, layout = .node4 n key → 3 ≤ n
  · have hmin := minCount_of_three_le hwf hchild hmany
    have hshrunk := wf_holds hwf hholds hmin (by simp)
    rw [deleteChild_eq_wrap chain children byte hmany]
    exact ⟨(wf_wrap hchain hshrunk (by simp)).1,by rw [rows_wrap,hrows]; rfl⟩
  -- a Node4 with two children: the one that stays goes below the prefix and its byte
  obtain ⟨key,rfl⟩ : ∃ key, layout = .node4 2 key := by
    simp only [not_forall] at hmany
    obtain ⟨n,key,rfl,hn⟩ := hmany
    have htwo : 2 ≤ n := hwf.2.1
    have heq : n = 2 := by omega
    exact ⟨key,by rw [heq]⟩
  obtain ⟨key',rest,hdelete⟩ : ∃ key' rest,
      Layout.deleteChild (.node4 2 key) children byte = (.node4 1 key', rest) := ⟨_,_,rfl⟩
  rw [hdelete] at hholds hrows
  have heq : deleteChild chain (.node4 2 key) children byte =
      concatenate chain (key' 0) (rest 0) := by
    simp [deleteChild,hdelete]
  have hone : ∀ b, (node4 1 key').getChild rest b =
      if b = key' 0 then some (rest 0) else none := by
    intro b
    by_cases hb : b = key' 0
    · simp [getChild,slot,SortedArray.indexOf,hb]
    · simp [getChild,slot,SortedArray.indexOf,hb,Ne.symm hb]
  have hzero := (hone (key' 0)).trans (if_pos rfl)
  have hne := hasMetadata_iff.mp (hasMetadata_of_getChild hholds.valid hzero)
  have hrest : (rest 0).Wf := by
    rw [hholds.getChild_eq,update_apply] at hzero
    split at hzero
    · cases hzero
    · exact (wf_inner.mp hwf).2.2 _ _ hzero
  rw [heq]
  refine ⟨(wf_concatenate (key' 0) hchain hrest hne).1,?_⟩
  rw [rows_concatenate,under_cons]
  congr 1
  refine Eq.trans ?_ hrows
  rw [rows_inner]
  congr 1
  funext b
  by_cases hb : b = key' 0
  · simp [childRows,hone,hb]
  · simp [childRows,hone,hb]

/-- The node behind the prefix of a child, and how the key continues there. -/
structure Reached (key : ArtKey) (node : Node) (depth : Nat) (passed : List (List Byte))
    (reached : Node) (depth' : Nat) : Prop where
  node_eq : node = wrap passed reached
  chain : ChainWf passed
  wf : reached.Wf
  ne_empty : reached ≠ empty
  not_prefixed : ∀ data next, reached ≠ prefixed data next
  suffix_eq : key.suffix depth = passed.flatten ++ key.suffix depth'
  apart : reached.rows.Apart (key.suffix depth')

/-- Looking ahead ends behind the prefix, or the key is not stored below. -/
theorem traverse_spec (hwf : node.Wf) (hne : node ≠ empty) (hdepth : depth ≤ key.len)
    (hapart : node.rows.Apart (key.suffix depth)) :
    (traverse key node depth = none → node.rows (key.suffix depth) = []) ∧
    ∀ passed reached depth', traverse key node depth = some (passed, reached, depth') →
      Reached key node depth passed reached depth' := by
  have hself : ∀ node : Node, node.Wf → node ≠ empty → (∀ data next, node ≠ prefixed data next) →
      ∀ {depth}, node.rows.Apart (key.suffix depth) → ∀ passed reached depth',
      some ([], node, depth) = some (passed, reached, depth') →
      Reached key node depth passed reached depth' := by
    intro node hwf hne hprefix depth hapart passed reached depth' heq
    cases heq
    exact ⟨rfl,by simp [ChainWf],hwf,hne, hprefix,rfl,hapart⟩
  induction node generalizing depth with
  | prefixed data next ih =>
    rcases mismatch_cases key data hdepth (eq_of_prefix_data hwf hapart) with
      ⟨hnone,hle,hsuffix⟩ | ⟨before,byte,after,rfl,hsome,_,hne,hsuffix⟩
    · obtain ⟨hdata,hsize,hnext,hwfnext⟩ := hwf
      rw [hsuffix] at hapart
      obtain ⟨ihnone,ihsome⟩ := ih hwfnext hnext hle hapart.under
      constructor
      · intro h
        have hrest : traverse key next (depth + data.length) = none := by
          simpa [traverse,hnone] using h
        rw [hsuffix,rows,under_append,ihnone hrest]
      · intro passed reached depth' h
        simp only [traverse,hnone,Option.map_eq_some_iff,Prod.mk.injEq,Prod.exists] at h
        obtain ⟨passed',reached',d,hrest,rfl,rfl,rfl⟩ := h
        have hr := ihsome passed' reached' d hrest
        refine ⟨by rw [hr.node_eq]; rfl,?_,hr.wf,hr.ne_empty,hr.not_prefixed,?_,hr.apart⟩
        · exact forall_mem_cons.mpr ⟨⟨hdata,hsize⟩,hr.chain⟩
        · rw [hsuffix,hr.suffix_eq,flatten_cons,append_assoc]
    · refine ⟨fun _ => by rw [hsuffix,rows_of_mismatch hne],?_⟩
      intro passed reached depth' heq
      simp [traverse,hsome] at heq
  | empty => exact absurd rfl hne
  | leafInlined rowId | leaf segments | inner layout children =>
    exact ⟨by simp [traverse],hself _ hwf hne (by simp) hapart⟩

/-- Below an inner node something stays: the tree above it is never freed as a whole. -/
theorem erase_ne_empty (rowId : RowId) (chain passed : List (List Byte)) (layout : Layout)
    (children : Nat → Node) (depth : Nat) :
    erase key rowId chain (wrap passed (inner layout children)) depth ≠ empty := by
  induction passed generalizing chain depth with
  | nil =>
    have hne : inner layout children ≠ empty := by simp
    change erase key rowId chain (inner layout children) depth ≠ empty
    unfold erase
    split
    · exact wrap_ne_empty chain hne
    split
    · exact wrap_ne_empty chain hne
    split
    · dsimp only
      split
      · exact deleteChild_ne_empty _ _ _ _
      · exact wrap_ne_empty chain (by simp)
    · exact wrap_ne_empty chain (by simp)
  | cons data passed ih =>
    change erase key rowId chain (prefixed data (wrap passed (inner layout children))) depth ≠ empty
    unfold erase
    split
    · exact wrap_ne_empty chain (by simp)
    · exact ih _ _

/-- The result of an erasure below a chain of prefix nodes: the row ids of one key change. -/
structure Erased (rowId : RowId) (chain : List (List Byte)) (node : Node) (w : List Byte)
    (result : Node) : Prop where
  wf : result.Wf
  rows_eq : result.rows = under chain.flatten
    (update node.rows w (removeRow (node.rows w) rowId))

variable (hchain : ChainWf chain)
include hchain

theorem Erased.of_absent (rowId : RowId) (hwf : node.Wf) (hne : node ≠ empty)
    (h : node.rows w = []) :
    Erased rowId chain node w (wrap chain node) := by
  refine ⟨(wf_wrap hchain hwf hne).1,?_⟩
  have hnone : removeRow (node.rows w) rowId = node.rows w := by
    rw [h]
    rfl
  rw [rows_wrap,hnone,update_eq_self]

theorem Erased.of_leaf (rowId : RowId) (hleaf : node.isLeaf = true) (hwf : node.Wf) :
    Erased rowId chain node []
      (if (node.leafRemove rowId).1 then empty else wrap chain (node.leafRemove rowId).2) := by
  obtain ⟨hfreed,hkept⟩ := leafRemove_spec hleaf hwf rowId
  have hrows : node.rows [] = node.rowIds := by simp [rows_of_isLeaf hleaf,single]
  split
  case isTrue h =>
    refine ⟨trivial,?_⟩
    rw [hrows,hfreed h,rows_of_isLeaf hleaf]
    simp [rows]
  case isFalse h =>
    obtain ⟨hleaf',hwf',hids⟩ := hkept (by simpa using h)
    have hne : (node.leafRemove rowId).2 ≠ empty := by
      intro hempty
      simp [hempty,isLeaf] at hleaf'
    refine ⟨(wf_wrap hchain hwf' hne).1,?_⟩
    simp [rows_wrap,rows_of_isLeaf hleaf',rows_of_isLeaf hleaf,hids,single]

variable (hwf : (inner layout children).Wf) (hslot : layout.slot children byte = some i)

include hwf hslot in
/-- The child at the next byte of the key has become another tree. -/
theorem Erased.of_child (hne : result ≠ empty) (h : Erased rowId [] (children i) w result) :
    Erased rowId chain (inner layout children) (byte :: w)
      (wrap chain (inner layout (layout.replaceChild children byte result))) := by
  have hchild : layout.getChild children byte = some (children i) := by
    simp [getChild,hslot]
  have hholds := replaceChild_holds hwf.1 hchild (hasMetadata_iff.mpr hne)
  have hwf' := wf_holds hwf hholds hwf.2.1 (by
    intro c hc
    obtain rfl := Option.some.inj hc
    exact h.wf)
  refine ⟨(wf_wrap hchain hwf' (by simp)).1,?_⟩
  rw [rows_wrap]
  congr 1
  refine (rows_holds hholds).trans ?_
  rw [Option.elim_some,h.rows_eq,rows_inner,← route_update,WordMap.route,
    childRows_some hslot]
  simp

include hwf hslot in
theorem Erased.of_freed {leaf : Node} (hchild : children i = wrap passed leaf)
    (hleaf : leaf.isLeaf = true) (hfreed : removeRow leaf.rowIds rowId = []) :
    Erased rowId chain (inner layout children) (byte :: passed.flatten)
      (deleteChild chain layout children byte) := by
  have hget : layout.getChild children byte = some (children i) := by
    simp [getChild,hslot]
  obtain ⟨hwf',hrows⟩ := deleteChild_spec hchain hwf hget
  refine ⟨hwf',hrows.trans ?_⟩
  have hstored : childRows layout children byte = single passed.flatten leaf.rowIds := by
    rw [childRows_some hslot,hchild,rows_wrap,rows_of_isLeaf hleaf,under_single,
      append_nil]
  have hids : childRows layout children byte passed.flatten = leaf.rowIds := by
    simp [hstored,single]
  rw [rows_inner,WordMap.route,hids,hfreed,← route_update,hstored,
    update_single,single_nil]

theorem erase_spec (rowId : RowId) (hwf : node.Wf) (hempty : node = empty → chain = [])
    (hdepth : depth ≤ key.len) (hapart : node.rows.Apart (key.suffix depth)) :
    Erased rowId chain node (key.suffix depth) (erase key rowId chain node depth) := by
  induction node generalizing depth chain with
  | empty =>
    obtain rfl := hempty rfl
    refine ⟨trivial,?_⟩
    funext w
    simp [erase,wrap,rows,WordMap.empty,removeRow,update_apply]
  | prefixed data next ih =>
    rcases mismatch_cases key data hdepth (eq_of_prefix_data hwf hapart) with
      ⟨hnone,hle,hsuffix⟩ | ⟨before,byte,after,rfl,hsome,_,hne,hsuffix⟩
    · have hchain' : ChainWf (chain ++ [data]) := by
        intro d hd
        rcases mem_append.mp hd with hd | hd
        · exact hchain d hd
        · obtain rfl := mem_singleton.mp hd
          exact ⟨hwf.1,hwf.2.1⟩
      rw [hsuffix] at hapart
      have hnext := ih hchain' hwf.2.2.2 (fun h => absurd h hwf.2.2.1) hle hapart.under
      simp only [erase,hnone]
      refine ⟨hnext.wf,?_⟩
      rw [hnext.rows_eq,hsuffix,rows,under_append,← under_update,
        under_under,flatten_append,flatten_singleton]
    · simp only [erase,hsome]
      exact Erased.of_absent hchain rowId hwf (by simp) (by rw [hsuffix,rows_of_mismatch hne])
  | leafInlined first | leaf segments =>
    rw [suffix_of_isLeaf rfl hwf hapart]
    exact Erased.of_leaf hchain rowId rfl hwf
  | inner layout children ih =>
    have hlt := depth_lt_of_inner hwf hapart
    have hchild := apart_child hlt hapart
    rw [key.suffix_of_lt hlt]
    cases hslot : layout.slot children (key.data depth) with
    | none =>
      simp only [erase,hslot]
      apply Erased.of_absent hchain rowId hwf (by simp)
      simp [rows_inner,WordMap.route,childRows_none hslot,WordMap.empty]
    | some i =>
      rw [childRows_some hslot] at hchild
      have hwfi := hwf.2.2 _ i hslot
      have hnei := child_ne_empty hwf.1 hslot
      obtain ⟨hmiss,hreach⟩ := traverse_spec hwfi hnei hlt hchild
      cases htraverse : traverse key (children i) (depth + 1) with
      | none =>
        simp only [erase,hslot,htraverse]
        apply Erased.of_absent hchain rowId hwf (by simp)
        rw [rows_inner,WordMap.route,childRows_some hslot]
        exact hmiss htraverse
      | some result =>
        obtain ⟨passed,reached,depth'⟩ := result
        have hr := hreach passed reached depth' htraverse
        simp only [erase,hslot,htraverse]
        split
        case isTrue hleaf =>
          obtain ⟨hfreed,hkept⟩ := leafRemove_spec hleaf hr.wf rowId
          have hend := suffix_of_isLeaf hleaf hr.wf hr.apart
          have hsuffix : key.suffix (depth + 1) = passed.flatten := by
            rw [hr.suffix_eq,hend,append_nil]
          split
          case isTrue hremoved =>
            rw [hsuffix]
            exact Erased.of_freed hchain hwf hslot hr.node_eq hleaf (hfreed hremoved)
          case isFalse hremoved =>
            obtain ⟨hleaf',hwf',hids⟩ := hkept (by simpa using hremoved)
            have hne' : (reached.leafRemove rowId).2 ≠ empty := by
              intro h
              simp [h,isLeaf] at hleaf'
            apply Erased.of_child hchain hwf hslot (wrap_ne_empty _ hne')
            refine ⟨(wf_wrap hr.chain hwf' hne').1,?_⟩
            rw [rows_wrap,rows_of_isLeaf hleaf',hids,hr.node_eq,rows_wrap,
              rows_of_isLeaf hleaf,hsuffix,under_single,under_single,
              append_nil]
            simp [single]
        case isFalse hleaf =>
          have hinner : ∃ layout' children', reached = inner layout' children' := by
            cases hcase : reached with
            | inner layout' children' => exact ⟨layout',children',rfl⟩
            | empty => exact absurd hcase hr.ne_empty
            | prefixed data next => exact absurd hcase (hr.not_prefixed data next)
            | leafInlined _ | leaf _ => simp [hcase,isLeaf] at hleaf
          obtain ⟨layout',children',rfl⟩ := hinner
          apply Erased.of_child hchain hwf hslot
          · rw [hr.node_eq]
            exact erase_ne_empty rowId [] passed layout' children' (depth + 1)
          · exact ih i (by simp [ChainWf]) hwfi (fun _ => rfl) hlt hchild

end PredTrans.Index.Node
