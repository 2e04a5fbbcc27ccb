import PredTrans.Index.ArtLeaf

/-!
Lookup and insertion on the contents of a tree. The key has to be apart from the stored ones:
then the descent never reads behind the end of the key, and it ends in the leaf of the key or
shows that there is none.
-/

namespace PredTrans.Index.Node

open Library Function Layout WordMap Option
open List hiding after

variable {key : ArtKey} {node next : Node} {depth : Nat}

/-- A prefix node matches the key, or there is a first byte where both differ. -/
theorem mismatch_cases (key : ArtKey) (data : List Byte) (hdepth : depth ≤ key.len)
    (h : key.suffix depth <+: data → key.suffix depth = data) :
    (mismatch key data depth = none ∧ depth + data.length ≤ key.len ∧
      key.suffix depth = data ++ key.suffix (depth + data.length)) ∨
    ∃ before byte after, data = before ++ byte :: after ∧
      mismatch key data depth = some before.length ∧ depth + before.length < key.len ∧
      byte ≠ key.data (depth + before.length) ∧
      key.suffix depth = before ++ key.data (depth + before.length) ::
        key.suffix (depth + before.length + 1) := by
  induction data generalizing depth with
  | nil => exact .inl ⟨rfl,hdepth,rfl⟩
  | cons byte data ih =>
    have hlt : depth < key.len := by
      apply key.lt_of_suffix_ne_nil
      intro hnil
      rw [hnil] at h
      exact cons_ne_nil byte data (h nil_prefix).symm
    have hsuffix := key.suffix_of_lt hlt
    by_cases hbyte : byte = key.data depth
    · have hrest : key.suffix (depth + 1) <+: data → key.suffix (depth + 1) = data := by
        intro hp
        have := h (by rw [hsuffix,hbyte]; exact (prefix_cons_inj _).mpr hp)
        rw [hsuffix] at this
        exact (List.cons.inj this).2
      rcases ih hlt hrest with ⟨hnone,hle,heq⟩ | ⟨before,b,after,hdata,hsome,hlt',hne,heq⟩
      · refine .inl ⟨by simp [mismatch,hbyte,hnone],?_,?_⟩
        · simp
          omega
        · rw [hsuffix,heq,hbyte,cons_append,length_cons]
          congr 3
          omega
      · have hindex : depth + 1 + before.length = depth + (byte :: before).length := by
          simp
          omega
        rw [hindex] at hlt' hne heq
        refine .inr ⟨byte :: before,b,after,by simp [hdata],?_,hlt',hne,?_⟩
        · simp [mismatch,hbyte,hsome]
        · rw [hsuffix,heq,hbyte]
          rfl
    · exact .inr ⟨[],byte,data,rfl,by simp [mismatch,hbyte],hlt,hbyte,hsuffix⟩

/-- The condition of the comparison, for a prefix node above a tree. -/
theorem eq_of_prefix_data (hwf : (prefixed data next).Wf)
    (hapart : (prefixed data next).rows.Apart (key.suffix depth)) :
    key.suffix depth <+: data → key.suffix depth = data := by
  obtain ⟨w,hw⟩ := exists_rows hwf.2.2.2 hwf.2.2.1
  exact WordMap.Apart.eq_of_prefix hapart hw

/-- A key that leaves a prefix is not stored below it. -/
theorem rows_of_mismatch (hne : byte ≠ other) :
    (prefixed (before ++ byte :: after) next).rows (before ++ other :: rest) = [] := by
  apply under_of_not
  rw [prefix_append_right_inj,cons_prefix_cons]
  exact fun h => hne h.1

theorem suffix_of_isLeaf (hleaf : node.isLeaf = true) (hwf : node.Wf)
    (hapart : node.rows.Apart (key.suffix depth)) : key.suffix depth = [] := by
  have hne : node.rows [] ≠ [] := by
    simpa [rows_of_isLeaf hleaf,single] using rowIds_ne_nil hleaf hwf
  exact (hapart [] hne (.inl nil_prefix)).symm

theorem rows_at_leaf (hleaf : node.isLeaf = true) (hwf : node.Wf)
    (hapart : node.rows.Apart (key.suffix depth)) :
    node.rowIds = node.rows (key.suffix depth) := by
  simp [suffix_of_isLeaf hleaf hwf hapart,rows_of_isLeaf hleaf,single]

/-- At an inner node the key has a byte left. -/
theorem depth_lt_of_inner (hwf : (inner layout children).Wf)
    (hapart : (inner layout children).rows.Apart (key.suffix depth)) : depth < key.len := by
  obtain ⟨w,hw⟩ := exists_rows hwf (by simp)
  rw [rows_inner] at hw hapart
  apply key.lt_of_suffix_ne_nil
  cases w with
  | nil => exact absurd rfl hw
  | cons byte w => exact hapart.ne_nil hw

theorem apart_child (hlt : depth < key.len)
    (hapart : (inner layout children).rows.Apart (key.suffix depth)) :
    (childRows layout children (key.data depth)).Apart (key.suffix (depth + 1)) := by
  rw [rows_inner,key.suffix_of_lt hlt] at hapart
  exact hapart.route

theorem lookup_spec (hwf : node.Wf) (hdepth : depth ≤ key.len)
    (hapart : node.rows.Apart (key.suffix depth)) :
    (∀ found, node.lookup key depth = some found → found.isLeaf = true ∧
      found.rowIds = node.rows (key.suffix depth) ∧ found.rowIds ≠ []) ∧
    (node.lookup key depth = none → node.rows (key.suffix depth) = []) := by
  induction node generalizing depth with
  | empty => simp [lookup,rows,WordMap.empty]
  | prefixed data next ih =>
    rcases mismatch_cases key data hdepth (eq_of_prefix_data hwf hapart) with
      ⟨hnone,hle,hsuffix⟩ | ⟨before,byte,after,rfl,hsome,_,hne,hsuffix⟩
    · rw [hsuffix] at hapart ⊢
      simpa [lookup,hnone,rows] using ih hwf.2.2.2 hle hapart.under
    · rw [hsuffix,rows_of_mismatch hne]
      simp [lookup,hsome]
  | leafInlined rowId =>
    have hrows := rows_at_leaf rfl hwf hapart
    simp [lookup,isLeaf,← hrows,rowIds]
  | leaf segments =>
    have hrows := rows_at_leaf rfl hwf hapart
    have hne := rowIds_ne_nil rfl hwf
    refine ⟨?_,by simp [lookup]⟩
    intro found h
    obtain rfl := some.inj h
    exact ⟨rfl,hrows,hne⟩
  | inner layout children ih =>
    have hlt := depth_lt_of_inner hwf hapart
    have hchild := apart_child hlt hapart
    rw [rows_inner,key.suffix_of_lt hlt]
    cases hslot : layout.slot children (key.data depth) with
    | none => simp [lookup,hslot,WordMap.route,childRows_none hslot,WordMap.empty]
    | some i =>
      rw [childRows_some hslot] at hchild
      simpa [lookup,hslot,route,childRows_some hslot] using
        ih i (hwf.2.2 _ i hslot) hlt hchild

theorem prefixNew_spec (key : ArtKey) (depth : Nat) (rowId : RowId) :
    (prefixNew key depth (key.len - depth) (leafInlined rowId)).rows =
        single (key.suffix depth) [rowId] ∧
      (prefixNew key depth (key.len - depth) (leafInlined rowId)).Wf ∧
      prefixNew key depth (key.len - depth) (leafInlined rowId) ≠ empty := by
  have hwf : (leafInlined rowId).Wf := trivial
  refine ⟨?_,wf_prefixChain _ _ hwf (by simp)⟩
  rw [prefixNew,rows_prefixChain _ _ _ (by simp),← key.suffix_eq_map]
  simp [rows,under_single]

theorem newLeaf_spec (key : ArtKey) (depth : Nat) (rowId : RowId) :
    (newLeaf key depth rowId).rows = single (key.suffix depth) [rowId] ∧
      (newLeaf key depth rowId).Wf ∧ newLeaf key depth rowId ≠ empty := by
  unfold newLeaf
  split
  case isTrue => exact prefixNew_spec key depth rowId
  case isFalse hge =>
    have hnil : key.suffix depth = [] := by
      apply eq_nil_of_length_eq_zero
      rw [key.length_suffix]
      omega
    exact ⟨by simp [rows,hnil],trivial,by simp⟩

theorem twoChildren_spec (hne : byte ≠ byte') (hwf : child.Wf) (hchild : child ≠ empty)
    (hwf' : child'.Wf) (hchild' : child' ≠ empty) :
    (twoChildren byte child byte' child').rows =
        WordMap.route (update (update (fun _ => WordMap.empty) byte child.rows)
          byte' child'.rows) ∧
      (twoChildren byte child byte' child').Wf := by
  have hnew : (node4 0 fun _ => 0).Valid (fun _ => empty) :=
    ⟨by simp,fun i j _ hj => absurd hj (Nat.not_lt_zero j),
      fun i hi => absurd hi (Nat.not_lt_zero i)⟩
  have hempty : (node4 0 fun _ => 0).getChild (fun _ => empty) = fun _ => none := rfl
  have hone := insertChild_holds hnew (congrFun hempty byte) (hasMetadata_iff.mpr hchild)
  have habsent := congrFun hone.getChild_eq byte'
  rw [update_of_ne hne.symm,hempty] at habsent
  have htwo := insertChild_holds hone.valid habsent (hasMetadata_iff.mpr hchild')
  constructor
  · have hrows := rows_holds htwo
    refine hrows.trans ?_
    congr 1
    congr 1
    funext b
    rw [childRows,hone.getChild_eq,hempty,update_apply,update_apply]
    split <;> rfl
  · refine wf_inner.mpr ⟨htwo.valid,?_,?_⟩
    · exact minCount_insertChild _ _ _ _ (Nat.le_refl 2)
    intro b c hc
    rw [htwo.getChild_eq,hone.getChild_eq,hempty,update_apply,
      update_apply] at hc
    split at hc
    · obtain rfl := some.inj hc
      exact hwf'
    · split at hc
      · obtain rfl := some.inj hc
        exact hwf
      · cases hc

theorem afterSplit_spec (hbefore : before.length ≤ prefixSize) (hwf : child.Wf)
    (hne : child ≠ empty) :
    (afterSplit before child).rows = under before child.rows ∧
      (afterSplit before child).Wf ∧ afterSplit before child ≠ empty := by
  unfold afterSplit
  split
  case isTrue hnil => exact ⟨by simp [hnil],hwf,hne⟩
  case isFalse hnil => exact ⟨rfl,⟨hnil,hbefore,hne,hwf⟩,by simp⟩

/-- The result of an insertion at a key: it fails only on a key that a unique index holds, and
then changes nothing; else the row id is added at the end. -/
structure Inserted (unique : Bool) (rowId : RowId) (node : Node) (w : List Byte)
    (result : Bool × Node) : Prop where
  wf : result.2.Wf
  ne_empty : result.2 ≠ empty
  ok_iff : result.1 = true ↔ unique = false ∨ node.rows w = []
  rows_ok : result.1 = true →
    result.2.rows = update node.rows w (node.rows w ++ [rowId])
  rows_failed : result.1 = false → result.2.rows = node.rows

theorem insertToLeaf_spec (unique : Bool) (rowId : RowId) (hleaf : node.isLeaf = true)
    (hwf : node.Wf) : Inserted unique rowId node [] (insertToLeaf unique node rowId) := by
  have hids := rowIds_ne_nil hleaf hwf
  have hrows : node.rows [] = node.rowIds := by simp [rows_of_isLeaf hleaf,single]
  have hne : node ≠ empty := by
    intro h
    simp [h,isLeaf] at hleaf
  unfold insertToLeaf
  cases unique with
  | true =>
    refine ⟨hwf,hne,?_,by simp,fun _ => rfl⟩
    simp [hrows,hids]
  | false =>
    obtain ⟨hleaf',hwf',hids'⟩ := leafInsert_spec hleaf hwf rowId
    have hne' : node.leafInsert rowId ≠ empty := by
      intro h
      simp [h,isLeaf] at hleaf'
    refine ⟨hwf',hne',by simp,fun _ => ?_,by simp⟩
    simp [rows_of_isLeaf hleaf',rows_of_isLeaf hleaf,hids',single]

theorem Inserted.of_child (hwf : (inner layout children).Wf)
    (hslot : layout.slot children byte = some i) (h : Inserted unique rowId (children i) w result) :
    Inserted unique rowId (inner layout children) (byte :: w)
      (result.1, inner layout (layout.replaceChild children byte result.2)) := by
  have hchild : layout.getChild children byte = some (children i) := by
    simp [getChild,hslot]
  have hholds := replaceChild_holds hwf.1 hchild (hasMetadata_iff.mpr h.ne_empty)
  have hrows := rows_holds hholds
  refine ⟨?_,by simp,?_,?_,?_⟩
  · apply wf_holds hwf hholds hwf.2.1
    intro c hc
    obtain rfl := some.inj hc
    exact h.wf
  · rw [h.ok_iff,rows_inner,route,childRows_some hslot]
  · intro hok
    refine hrows.trans ?_
    rw [elim_some,h.rows_ok hok,rows_inner,← route_update,route,
      childRows_some hslot]
  · intro hfailed
    refine hrows.trans ?_
    rw [elim_some,h.rows_failed hfailed,← childRows_some hslot,update_eq_self,
      rows_inner]

theorem Inserted.of_newLeaf (unique : Bool) (rowId : RowId) (hwf : (inner layout children).Wf)
    (hslot : layout.slot children byte = none) (depth : Nat) :
    Inserted unique rowId (inner layout children) (byte :: key.suffix depth)
      (true, inner (layout.insertChild children byte (newLeaf key depth rowId)).1
        (layout.insertChild children byte (newLeaf key depth rowId)).2) := by
  obtain ⟨hrows,hwfleaf,hne⟩ := newLeaf_spec key depth rowId
  have habsent : layout.getChild children byte = none := by simp [getChild,hslot]
  have hholds := insertChild_holds hwf.1 habsent (hasMetadata_iff.mpr hne)
  have hnone : (inner layout children).rows (byte :: key.suffix depth) = [] := by
    simp [rows_inner,WordMap.route,childRows_none hslot,WordMap.empty]
  have hmin := hwf.2.1
  refine ⟨?_,by simp,by simp [hnone],?_,by simp⟩
  · apply wf_holds hwf hholds
    · rw [count_insertChild]
      exact minCount_insertChild _ _ _ _ (by omega)
    · intro c hc
      obtain rfl := some.inj hc
      exact hwfleaf
  · intro _
    refine (rows_holds hholds).trans ?_
    rw [hnone,rows_inner,← route_update,childRows_none hslot,elim_some,hrows]
    rfl

theorem Inserted.of_split (unique : Bool) (rowId : RowId)
    (hwf : (prefixed (before ++ byte :: after) next).Wf) (hne : byte ≠ other) (depth : Nat) :
    Inserted unique rowId (prefixed (before ++ byte :: after) next)
      (before ++ other :: key.suffix depth)
      (true, afterSplit (split (before ++ byte :: after) next before.length).1
        (twoChildren byte (split (before ++ byte :: after) next before.length).2 other
          (newLeaf key depth rowId))) := by
  obtain ⟨_,hdata,hnext,hwfnext⟩ := hwf
  obtain ⟨hrows,hwfleaf,hneleaf⟩ := newLeaf_spec key depth rowId
  obtain ⟨hbefore,hafter,hwfafter,hneafter⟩ :=
    split_spec hdata (show before.length < _ by simp) hwfnext hnext
  obtain ⟨hrowstwo,hwftwo⟩ := twoChildren_spec hne hwfafter hneafter hwfleaf hneleaf
  have hlen : (split (before ++ byte :: after) next before.length).1.length ≤ prefixSize := by
    rw [hbefore]
    simp only [length_append,length_cons,length_take] at hdata ⊢
    omega
  obtain ⟨hrowssplit,hwfsplit,hnesplit⟩ := afterSplit_spec hlen hwftwo (by simp [twoChildren])
  have hnone : (prefixed (before ++ byte :: after) next).rows
      (before ++ other :: key.suffix depth) = [] := rows_of_mismatch hne
  refine ⟨hwfsplit,hnesplit,by simp [hnone],?_,by simp⟩
  intro _
  have htake : (before ++ byte :: after).take before.length = before := by simp
  have hdrop : (before ++ byte :: after).drop (before.length + 1) = after := by simp
  have hpath : (prefixed (before ++ byte :: after) next).rows = under before
      (WordMap.route (update (fun _ => WordMap.empty) byte
        (under after next.rows))) := by
    rw [← under_cons,under_under,under_under]
    simp [rows]
  refine hrowssplit.trans ?_
  rw [hnone,hrowstwo,hbefore,htake,hafter,hdrop,hpath,← under_update,
    ← route_update,update_of_ne hne.symm,hrows]
  rfl

theorem insert_spec (unique : Bool) (rowId : RowId) (hwf : node.Wf) (hdepth : depth ≤ key.len)
    (hapart : node.rows.Apart (key.suffix depth)) :
    Inserted unique rowId node (key.suffix depth) (node.insert unique key rowId depth) := by
  induction node generalizing depth with
  | empty =>
    obtain ⟨hrows,hwfnew,hnenew⟩ := prefixNew_spec key depth rowId
    exact ⟨hwfnew,hnenew,by simp [insert,rows,WordMap.empty],fun _ => hrows,by simp [insert]⟩
  | prefixed data next ih =>
    rcases mismatch_cases key data hdepth (eq_of_prefix_data hwf hapart) with
      ⟨hnone,hle,hsuffix⟩ | ⟨before,byte,after,rfl,hsome,hlt,hne,hsuffix⟩
    · rw [hsuffix] at hapart ⊢
      have hnext := ih hwf.2.2.2 hle hapart.under
      simp only [insert,hnone]
      refine ⟨⟨hwf.1,hwf.2.1,hnext.ne_empty,hnext.wf⟩,by simp,?_,?_,?_⟩
      · rw [hnext.ok_iff,rows,under_append]
      · intro hok
        rw [rows,hnext.rows_ok hok,under_update,rows,under_append]
      · intro hfailed
        rw [rows,hnext.rows_failed hfailed,rows]
    · rw [hsuffix]
      have hbyte : (before ++ byte :: after).getD before.length 0 = byte := by simp
      simp only [insert,hsome,hbyte]
      exact Inserted.of_split unique rowId hwf hne _
  | leafInlined first | leaf segments =>
    rw [suffix_of_isLeaf rfl hwf hapart]
    exact insertToLeaf_spec unique rowId rfl hwf
  | inner layout children ih =>
    have hlt := depth_lt_of_inner hwf hapart
    have hchild := apart_child hlt hapart
    rw [key.suffix_of_lt hlt]
    cases hslot : layout.slot children (key.data depth) with
    | none =>
      simp only [insert,hslot]
      exact Inserted.of_newLeaf unique rowId hwf hslot (depth + 1)
    | some i =>
      rw [childRows_some hslot] at hchild
      simp only [insert,hslot]
      exact Inserted.of_child hwf hslot (ih i (hwf.2.2 _ i hslot) hlt hchild)

end PredTrans.Index.Node
