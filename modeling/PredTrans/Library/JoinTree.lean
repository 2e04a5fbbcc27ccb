import Mathlib

namespace PredTrans.Library
open List

/-! Join trees of acyclic schemes, and that a tree grown greedily by the number
of shared attributes is one. Graphs are symmetric relations. -/

section Reachability

variable {V : Type*}

abbrev Reach (T : V → V → Prop) : V → V → Prop := Relation.ReflTransGen T

/-- The two directions of one edge. -/
def IsEdge (u v x y : V) : Prop := (x = u ∧ y = v) ∨ (x = v ∧ y = u)

def without (T : V → V → Prop) (u v : V) : V → V → Prop := fun x y => T x y ∧ ¬ IsEdge u v x y

def withEdge (T : V → V → Prop) (u v : V) : V → V → Prop := fun x y => T x y ∨ IsEdge u v x y

/-- The part of a graph between members of a set. -/
def within (T : V → V → Prop) (S : Set V) : V → V → Prop := fun x y => T x y ∧ x ∈ S ∧ y ∈ S

variable {T T' : V → V → Prop} {u v x y : V}

theorem IsEdge.symm (h : IsEdge u v x y) : IsEdge u v y x :=
  h.elim (fun h => .inr ⟨h.2,h.1⟩) (fun h => .inl ⟨h.2,h.1⟩)

theorem reach_mono (h : ∀ x y, T x y → T' x y) (hr : Reach T x y) : Reach T' x y :=
  Relation.ReflTransGen.mono h _ _ hr

theorem reach_symm (h : ∀ x y, T x y → T y x) (hr : Reach T x y) : Reach T y x := by
  induction hr with
  | refl => exact .refl
  | tail _ hbc ih => exact .head (h _ _ hbc) ih

/-- A walk uses an edge or it does not; in the first case its ends are joined to
the ends of the edge. -/
theorem reach_without (hr : Reach T x y) :
    Reach (without T u v) x y ∨ (Reach (without T u v) x u ∧ Reach (without T u v) v y) ∨
      (Reach (without T u v) x v ∧ Reach (without T u v) u y) := by
  induction hr with
  | refl => exact .inl .refl
  | @tail b c _ hbc ih =>
    by_cases he : IsEdge u v b c
    · rcases he with ⟨rfl,rfl⟩ | ⟨rfl,rfl⟩
      · rcases ih with h | ⟨h,-⟩ | ⟨h,-⟩
        · exact .inr (.inl ⟨h,.refl⟩)
        · exact .inr (.inl ⟨h,.refl⟩)
        · exact .inl h
      · rcases ih with h | ⟨h,-⟩ | ⟨h,-⟩
        · exact .inr (.inr ⟨h,.refl⟩)
        · exact .inl h
        · exact .inr (.inr ⟨h,.refl⟩)
    · have hstep : without T u v b c := ⟨hbc,he⟩
      rcases ih with h | ⟨h,h'⟩ | ⟨h,h'⟩
      · exact .inl (h.tail hstep)
      · exact .inr (.inl ⟨h,h'.tail hstep⟩)
      · exact .inr (.inr ⟨h,h'.tail hstep⟩)

theorem reach_withEdge (hr : Reach (withEdge T u v) x y) :
    Reach T x y ∨ (Reach T x u ∧ Reach T v y) ∨ (Reach T x v ∧ Reach T u y) := by
  have hmono : ∀ x y, without (withEdge T u v) u v x y → T x y :=
    fun x y h => h.1.resolve_right h.2
  rcases reach_without hr with h | ⟨h,h'⟩ | ⟨h,h'⟩
  · exact .inl (reach_mono hmono h)
  · exact .inr (.inl ⟨reach_mono hmono h,reach_mono hmono h'⟩)
  · exact .inr (.inr ⟨reach_mono hmono h,reach_mono hmono h'⟩)

/-- A walk that leaves a set leaves it for the last time over some edge. -/
theorem exists_last_exit (hr : Reach T x y) (hx : x ∈ C) (hy : y ∉ C) :
    ∃ u ∈ C, ∃ v, v ∉ C ∧ T u v ∧ Reach (within T Cᶜ) v y := by
  induction hr with
  | refl => exact absurd hx hy
  | @tail b c _ hbc ih =>
    by_cases hb : b ∈ C
    · exact ⟨b,hb,c,hy,hbc,.refl⟩
    · obtain ⟨u,hu,v,hv,huv,hr⟩ := ih hb
      exact ⟨u,hu,v,hv,huv,hr.tail ⟨hbc,hb,hy⟩⟩

end Reachability

section JoinTree

variable {V A : Type*} [DecidableEq A]

/-- A tree over the relations of a scheme in which the relations with a common
attribute hang together. -/
structure JoinTree (attrs : V → Finset A) (rels : Set V) (T : V → V → Prop) : Prop where
  symm : ∀ x y, T x y → T y x
  mem : ∀ x y, T x y → x ∈ rels ∧ y ∈ rels
  spans : ∀ x ∈ rels, ∀ y ∈ rels, Reach T x y
  bridge : ∀ u v, T u v → ¬ Reach (without T u v) u v
  meets : ∀ a, ∀ x ∈ rels, ∀ y ∈ rels, a ∈ attrs x → a ∈ attrs y →
    Reach (within T {z | a ∈ attrs z}) x y

variable {attrs : V → Finset A} {rels : Set V} {T : V → V → Prop}

theorem without_symm (h : ∀ x y, T x y → T y x) (u v : V) :
    ∀ x y, without T u v x y → without T u v y x :=
  fun x y hxy => ⟨h x y hxy.1,fun he => hxy.2 he.symm⟩

theorem within_symm (h : ∀ x y, T x y → T y x) (S : Set V) :
    ∀ x y, within T S x y → within T S y x :=
  fun x y hxy => ⟨h x y hxy.1,hxy.2.2,hxy.2.1⟩

/-- The ends of an edge share what two relations on its two sides share. -/
theorem JoinTree.shared_subset (h : JoinTree attrs rels T) (hi : i ∈ rels) (hj : j ∈ rels)
    (hsep : ¬ Reach (without T u v) j i) : attrs j ∩ attrs i ⊆ attrs u ∩ attrs v := by
  intro a ha
  obtain ⟨haj,hai⟩ := Finset.mem_inter.mp ha
  by_contra hne
  apply hsep
  refine reach_mono (fun x y hxy => ⟨hxy.1,fun he => hne ?_⟩) (h.meets a j hj i hi haj hai)
  rcases he with ⟨rfl,rfl⟩ | ⟨rfl,rfl⟩
  · exact Finset.mem_inter.mpr hxy.2
  · exact Finset.mem_inter.mpr ⟨hxy.2.2,hxy.2.1⟩

/-- What is needed to replace the tree edge `u v` by the edge `j i`. -/
structure Exchange (attrs : V → Finset A) (T : V → V → Prop) (u v j i : V) : Prop where
  edge : T u v
  near : Reach (without T u v) u j
  far : Reach (without T u v) v i
  shared : attrs j ∩ attrs i = attrs u ∩ attrs v

/-- Walks over the removed edge go over the new one instead. -/
theorem Exchange.reach (hold : ∀ p q, without old u v p q → new p q) (hji : new j i) (hij : new i j)
    (huj : Reach new u j) (hju : Reach new j u) (hvi : Reach new v i) (hiv : Reach new i v)
    (hr : Reach old x y) : Reach new x y := by
  rcases reach_without hr with hr | ⟨hr,hr'⟩ | ⟨hr,hr'⟩
  · exact reach_mono hold hr
  · have hfirst := (reach_mono hold hr).trans huj
    exact (hfirst.tail hji).trans (hiv.trans (reach_mono hold hr'))
  · have hfirst := (reach_mono hold hr).trans hvi
    exact (hfirst.tail hij).trans (hju.trans (reach_mono hold hr'))

section

variable {u v j i : V} (h : Exchange attrs T u v j i) (ht : JoinTree attrs rels T) (hj : j ∈ rels)
  (hi : i ∈ rels)
include h ht

theorem Exchange.separates : ¬ Reach (without T u v) j i := by
  intro hji
  apply ht.bridge u v h.edge
  exact (h.near.trans hji).trans (reach_symm (without_symm ht.symm u v) h.far)

include hj hi in
/-- Within the relations of one attribute the two halves stay connected. -/
theorem Exchange.meets (ha : a ∈ attrs u ∩ attrs v) :
    Reach (within (without T u v) {z | a ∈ attrs z}) u j ∧
      Reach (within (without T u v) {z | a ∈ attrs z}) v i := by
  have hmono : ∀ x y, without (within T {z | a ∈ attrs z}) u v x y →
      within (without T u v) {z | a ∈ attrs z} x y :=
    fun x y hxy => ⟨⟨hxy.1.1,hxy.2⟩,hxy.1.2⟩
  have hforget : ∀ {x y}, Reach (without (within T {z | a ∈ attrs z}) u v) x y →
      Reach (without T u v) x y :=
    fun hr => reach_mono (fun x y hxy => ⟨hxy.1.1,hxy.2⟩) hr
  have hsymm := without_symm ht.symm u v
  have hcut := ht.bridge u v h.edge
  obtain ⟨hau,hav⟩ := Finset.mem_inter.mp ha
  obtain ⟨haj,hai⟩ := Finset.mem_inter.mp (h.shared.symm ▸ ha)
  obtain ⟨hu,hv⟩ := ht.mem u v h.edge
  constructor
  · rcases reach_without (ht.meets a u hu j hj hau haj) with hr | ⟨-,hr⟩ | ⟨hr,-⟩
    · exact reach_mono hmono hr
    · exact absurd (h.near.trans (reach_symm hsymm (hforget hr))) hcut
    · exact absurd (hforget hr) hcut
  · rcases reach_without (ht.meets a v hv i hi hav hai) with hr | ⟨hr,-⟩ | ⟨-,hr⟩
    · exact reach_mono hmono hr
    · exact absurd (reach_symm hsymm (hforget hr)) hcut
    · exact absurd ((hforget hr).trans (reach_symm hsymm h.far)) hcut

/-- The tree after the exchange. -/
def exchanged (T : V → V → Prop) (u v j i : V) : V → V → Prop := withEdge (without T u v) j i

theorem Exchange.spans : ∀ x ∈ rels, ∀ y ∈ rels, Reach (exchanged T u v j i) x y := by
  intro x hx y hy
  have hsymm := without_symm ht.symm u v
  have hleft : ∀ x y, without T u v x y → exchanged T u v j i x y := fun _ _ => .inl
  exact Exchange.reach hleft (.inr (.inl ⟨rfl,rfl⟩)) (.inr (.inr ⟨rfl,rfl⟩))
    (reach_mono hleft h.near) (reach_mono hleft (reach_symm hsymm h.near))
    (reach_mono hleft h.far) (reach_mono hleft (reach_symm hsymm h.far)) (ht.spans x hx y hy)

/-- No edge of the new tree lies on a cycle. -/
theorem Exchange.bridge :
    ∀ x y, exchanged T u v j i x y → ¬ Reach (without (exchanged T u v j i) x y) x y := by
  intro x y hxy hr
  have hsymm := without_symm ht.symm u v
  have hsep := h.separates ht
  by_cases he : IsEdge j i x y
  · have hback : Reach (without T u v) x y := by
      refine reach_mono (fun p q hpq => hpq.1.resolve_right (fun hpe => hpq.2 ?_)) hr
      rcases he with ⟨rfl,rfl⟩ | ⟨rfl,rfl⟩
      · exact hpe
      · exact hpe.elim .inr .inl
    rcases he with ⟨rfl,rfl⟩ | ⟨rfl,rfl⟩
    · exact hsep hback
    · exact hsep (reach_symm hsymm hback)
  · have hold : without T u v x y := hxy.resolve_right he
    have hsplit : ∀ p q, without (exchanged T u v j i) x y p q →
        withEdge (without (without T u v) x y) j i p q :=
      fun p q hpq => hpq.1.imp (fun h' => ⟨h',hpq.2⟩) id
    have hforget : ∀ {p q}, Reach (without (without T u v) x y) p q →
        Reach (without T u v) p q := fun hr => reach_mono (fun p q h => h.1) hr
    rcases reach_withEdge (reach_mono hsplit hr) with hr | ⟨hr,hr'⟩ | ⟨hr,hr'⟩
    · exact ht.bridge x y hold.1 (reach_mono (fun p q h => ⟨h.1.1,h.2⟩) hr)
    · -- the new edge was used, so the old edge joins its two sides
      have hjx := reach_symm hsymm (hforget hr)
      exact hsep (hjx.trans (.head hold (reach_symm hsymm (hforget hr'))))
    · exact hsep ((hforget hr').trans (.head (hsymm x y hold) (hforget hr)))

include hj hi in
theorem Exchange.reach_within (hr : Reach (within T {z | a ∈ attrs z}) x y) :
    Reach (within (exchanged T u v j i) {z | a ∈ attrs z}) x y := by
  by_cases ha : a ∈ attrs u ∩ attrs v
  · obtain ⟨haj,hai⟩ := Finset.mem_inter.mp (h.shared.symm ▸ ha)
    obtain ⟨huj,hvi⟩ := h.meets ht hj hi ha
    have hsymm := within_symm (without_symm ht.symm u v) {z | a ∈ attrs z}
    have hleft : ∀ p q, within (without T u v) {z | a ∈ attrs z} p q →
        within (exchanged T u v j i) {z | a ∈ attrs z} p q := fun p q hpq => ⟨.inl hpq.1,hpq.2⟩
    exact Exchange.reach (fun p q hpq => ⟨.inl ⟨hpq.1.1,hpq.2⟩,hpq.1.2⟩)
      ⟨.inr (.inl ⟨rfl,rfl⟩),haj,hai⟩ ⟨.inr (.inr ⟨rfl,rfl⟩),hai,haj⟩
      (reach_mono hleft huj) (reach_mono hleft (reach_symm hsymm huj))
      (reach_mono hleft hvi) (reach_mono hleft (reach_symm hsymm hvi)) hr
  · refine reach_mono (fun p q hpq => ⟨.inl ⟨hpq.1,fun he => ha ?_⟩,hpq.2⟩) hr
    rcases he with ⟨rfl,rfl⟩ | ⟨rfl,rfl⟩
    · exact Finset.mem_inter.mpr hpq.2
    · exact Finset.mem_inter.mpr ⟨hpq.2.2,hpq.2.1⟩

include hj hi in
theorem Exchange.joinTree : JoinTree attrs rels (exchanged T u v j i) := by
  refine ⟨?_,?_,h.spans ht,h.bridge ht,?_⟩
  · intro x y hxy
    exact hxy.imp (without_symm ht.symm u v x y) IsEdge.symm
  · intro x y hxy
    rcases hxy with hxy | ⟨rfl,rfl⟩ | ⟨rfl,rfl⟩
    · exact ht.mem x y hxy.1
    · exact ⟨hj,hi⟩
    · exact ⟨hi,hj⟩
  · intro a x hx y hy hax hay
    exact h.reach_within ht hj hi (ht.meets a x hx y hy hax hay)

end

/-- The heaviest edge that leaves a connected part belongs to some join tree that
agrees with the given one on the part. -/
theorem JoinTree.extend (ht : JoinTree attrs rels T) (hC : C ⊆ rels)
    (hconn : ∀ x ∈ C, ∀ y ∈ C, Reach (within T C) x y) (hj : j ∈ C) (hi : i ∈ rels) (hout : i ∉ C)
    (hmax : ∀ u ∈ C, ∀ v ∈ rels, v ∉ C → (attrs u ∩ attrs v).card ≤ (attrs j ∩ attrs i).card) :
    ∃ T', JoinTree attrs rels T' ∧ (∀ x y, within T C x y → T' x y) ∧ T' j i := by
  obtain ⟨u,hu,v,hv,huv,hr⟩ := exists_last_exit (ht.spans j (hC hj) i hi) hj hout
  have hinside : ∀ x y, within T C x y → without T u v x y := by
    intro x y hxy
    refine ⟨hxy.1,fun he => ?_⟩
    rcases he with ⟨rfl,rfl⟩ | ⟨rfl,rfl⟩
    · exact hv hxy.2.2
    · exact hv hxy.2.1
  have hoff : ∀ x y, within T Cᶜ x y → without T u v x y := by
    intro x y hxy
    refine ⟨hxy.1,fun he => ?_⟩
    rcases he with ⟨rfl,rfl⟩ | ⟨rfl,rfl⟩
    · exact hxy.2.1 hu
    · exact hxy.2.2 hu
  have hnear := reach_mono hinside (hconn u hu j hj)
  have hfar := reach_mono hoff hr
  have hsep : ¬ Reach (without T u v) j i := by
    intro hji
    apply ht.bridge u v huv
    exact (hnear.trans hji).trans (reach_symm (without_symm ht.symm u v) hfar)
  have hsub := ht.shared_subset hi (hC hj) hsep
  have hshared : attrs j ∩ attrs i = attrs u ∩ attrs v :=
    Finset.eq_of_subset_of_card_le hsub (hmax u hu v (ht.mem u v huv).2 hv)
  have hex : Exchange attrs T u v j i := ⟨huv,hnear,hfar,hshared⟩
  exact ⟨exchanged T u v j i,hex.joinTree ht (hC hj) hi,fun x y hxy => .inl (hinside x y hxy),
    .inr (.inl ⟨rfl,rfl⟩)⟩

end JoinTree

section Acyclic

variable {V A : Type*} [DecidableEq A]

/-- A scheme built by adding ears: what a new relation shares with the others, it
shares with one of them. -/
inductive EarOrder (attrs : V → Finset A) : List V → Prop where
  | single (x : V) : EarOrder attrs [x]
  | ear {y z : V} {l : List V} : EarOrder attrs l → y ∉ l → z ∈ l →
      (∀ w ∈ l, attrs y ∩ attrs w ⊆ attrs z) → EarOrder attrs (y :: l)

/-- Ear removal reduces the scheme to one relation. -/
def AlphaAcyclic (attrs : V → Finset A) (rels : List V) : Prop :=
  ∃ l, l.Perm rels ∧ EarOrder attrs l

variable {attrs : V → Finset A} {T : V → V → Prop}

/-- A walk over edges between members stays among the members. -/
theorem reach_mem {S : Set V} (hmem : ∀ x y, T x y → x ∈ S ∧ y ∈ S) (hr : Reach T x y) :
    x = y ∨ (x ∈ S ∧ y ∈ S) := by
  induction hr with
  | refl => exact .inl rfl
  | tail _ hbc ih =>
    obtain ⟨hb,hc⟩ := hmem _ _ hbc
    rcases ih with rfl | ⟨hx,-⟩
    · exact .inr ⟨hb,hc⟩
    · exact .inr ⟨hx,hc⟩

theorem JoinTree.addEar {l : List V} (ht : JoinTree attrs {x | x ∈ l} T) (hy : y ∉ l) (hz : z ∈ l)
    (hear : ∀ w ∈ l, attrs y ∩ attrs w ⊆ attrs z) :
    JoinTree attrs {x | x ∈ y :: l} (withEdge T y z) := by
  have hold : ∀ p q, T p q → withEdge T y z p q := fun _ _ => .inl
  have hyz : withEdge T y z y z := .inr (.inl ⟨rfl,rfl⟩)
  have hzy : withEdge T y z z y := .inr (.inr ⟨rfl,rfl⟩)
  have hyfar : ∀ w ∈ l, ¬ Reach T y w := by
    intro w hw hr
    rcases reach_mem ht.mem hr with rfl | ⟨h,-⟩
    · exact hy hw
    · exact hy h
  constructor
  · intro p q hpq
    exact hpq.imp (ht.symm p q) IsEdge.symm
  · intro p q hpq
    rcases hpq with hpq | ⟨rfl,rfl⟩ | ⟨rfl,rfl⟩
    · obtain ⟨hp,hq⟩ := ht.mem p q hpq
      exact ⟨mem_cons_of_mem _ hp,mem_cons_of_mem _ hq⟩
    · exact ⟨mem_cons_self,mem_cons_of_mem _ hz⟩
    · exact ⟨mem_cons_of_mem _ hz,mem_cons_self⟩
  · intro p hp q hq
    have hreach : ∀ w ∈ y :: l, Reach (withEdge T y z) w z ∧ Reach (withEdge T y z) z w := by
      intro w hw
      rcases mem_cons.mp hw with rfl | hw
      · exact ⟨.single hyz,.single hzy⟩
      · exact ⟨reach_mono hold (ht.spans w hw z hz),reach_mono hold (ht.spans z hz w hw)⟩
    exact (hreach p hp).1.trans (hreach q hq).2
  · intro p q hpq hr
    by_cases he : IsEdge y z p q
    · have hback : Reach T p q := by
        refine reach_mono (fun a b hab => hab.1.resolve_right (fun hpe => hab.2 ?_)) hr
        rcases he with ⟨rfl,rfl⟩ | ⟨rfl,rfl⟩
        · exact hpe
        · exact hpe.elim .inr .inl
      rcases he with ⟨rfl,rfl⟩ | ⟨rfl,rfl⟩
      · exact hyfar _ hz hback
      · exact hyfar _ hz (reach_symm ht.symm hback)
    · have hTpq : T p q := hpq.resolve_right he
      obtain ⟨hp,hq⟩ := ht.mem p q hTpq
      have hsplit : ∀ a b, without (withEdge T y z) p q a b → withEdge (without T p q) y z a b :=
        fun a b hab => hab.1.imp (fun h => ⟨h,hab.2⟩) id
      have hforget : ∀ {a b}, Reach (without T p q) a b → Reach T a b :=
        fun hr => reach_mono (fun a b h => h.1) hr
      rcases reach_withEdge (reach_mono hsplit hr) with hr | ⟨hr,-⟩ | ⟨-,hr⟩
      · exact ht.bridge p q hTpq hr
      · exact hyfar p hp (reach_symm ht.symm (hforget hr))
      · exact hyfar q hq (hforget hr)
  · intro a p hp q hq hap haq
    have hkeep : ∀ x w, within T {z | a ∈ attrs z} x w →
        within (withEdge T y z) {z | a ∈ attrs z} x w := fun x w hxw => ⟨.inl hxw.1,hxw.2⟩
    have hear' : ∀ w ∈ l, a ∈ attrs w → a ∈ attrs y → a ∈ attrs z :=
      fun w hw haw hay => hear w hw (Finset.mem_inter.mpr ⟨hay,haw⟩)
    rcases mem_cons.mp hp with rfl | hpl
    · rcases mem_cons.mp hq with rfl | hql
      · exact .refl
      · have haz := hear' q hql haq hap
        exact .head ⟨hyz,hap,haz⟩ (reach_mono hkeep (ht.meets a z hz q hql haz haq))
    · rcases mem_cons.mp hq with rfl | hql
      · have haz := hear' p hpl hap haq
        exact (reach_mono hkeep (ht.meets a p hpl z hz hap haz)).tail ⟨hzy,haz,haq⟩
      · exact reach_mono hkeep (ht.meets a p hpl q hql hap haq)

theorem EarOrder.exists_joinTree (h : EarOrder attrs l) : ∃ T, JoinTree attrs {x | x ∈ l} T := by
  induction h with
  | single x =>
    refine ⟨fun _ _ => False,fun _ _ h => h,nofun,?_,nofun,?_⟩
    · intro p hp q hq
      rw [mem_singleton.mp hp,mem_singleton.mp hq]
    · intro a p hp q hq _ _
      rw [mem_singleton.mp hp,mem_singleton.mp hq]
  | ear _ hy hz hear ih =>
    obtain ⟨T,ht⟩ := ih
    exact ⟨_,ht.addEar hy hz hear⟩

theorem AlphaAcyclic.exists_joinTree (h : AlphaAcyclic attrs rels) :
    ∃ T, JoinTree attrs {x | x ∈ rels} T := by
  obtain ⟨l,hperm,hl⟩ := h
  have hset : {x | x ∈ rels} = {x | x ∈ l} := Set.ext (fun x => hperm.mem_iff.symm)
  rw [hset]
  exact hl.exists_joinTree

end Acyclic

section Growth

variable {V A : Type*} [DecidableEq A]

/-- The root and the relations added to it, in order. -/
def members (root : V) (g : List (V × V)) : List V := root :: g.map Prod.snd

/-- A tree given by its edges in the order they are added, each with the end that
was there before first. -/
inductive RootedTree (root : V) : List (V × V) → Prop where
  | nil : RootedTree root []
  | snoc {g : List (V × V)} {j i : V} : RootedTree root g → j ∈ members root g →
      i ∉ members root g → RootedTree root (g ++ [(j, i)])

/-- A tree grown by always adding a heaviest edge that leaves it. -/
inductive Growth (weight : V → V → Nat) (rels : List V) (root : V) : List (V × V) → Prop where
  | nil : Growth weight rels root []
  | snoc {g : List (V × V)} {j i : V} : Growth weight rels root g → j ∈ members root g → i ∈ rels →
      i ∉ members root g →
      (∀ u ∈ members root g, ∀ v ∈ rels, v ∉ members root g → weight u v ≤ weight j i) →
      Growth weight rels root (g ++ [(j, i)])

/-- A tree grown by ears. -/
inductive Ears (attrs : V → Finset A) (root : V) : List (V × V) → Prop where
  | nil : Ears attrs root []
  | snoc {g : List (V × V)} {j i : V} : Ears attrs root g → j ∈ members root g →
      i ∉ members root g → (∀ w ∈ members root g, attrs i ∩ attrs w ⊆ attrs j) →
      Ears attrs root (g ++ [(j, i)])

variable {attrs : V → Finset A} {rels : List V} {root : V} {weight : V → V → Nat}
  {T : V → V → Prop} {g : List (V × V)}

theorem members_snoc (root : V) (g : List (V × V)) (e : V × V) :
    members root (g ++ [e]) = members root g ++ [e.2] := by
  simp [members]

theorem Growth.members_subset (h : Growth weight rels root g) (hroot : root ∈ rels) :
    members root g ⊆ rels := by
  induction h with
  | nil => simpa [members] using hroot
  | snoc _ _ hi _ _ ih =>
    rw [members_snoc]
    exact append_subset.mpr ⟨ih,by simpa using hi⟩

theorem Growth.rootedTree (h : Growth weight rels root g) : RootedTree root g := by
  induction h with
  | nil => exact .nil
  | snoc _ hj _ hi _ ih => exact ih.snoc hj hi

theorem Ears.rootedTree (h : Ears attrs root g) : RootedTree root g := by
  induction h with
  | nil => exact .nil
  | snoc _ hj hi _ ih => exact ih.snoc hj hi

theorem RootedTree.ends_mem (h : RootedTree root g) :
    ∀ e ∈ g, e.1 ∈ members root g ∧ e.2 ∈ members root g := by
  induction h with
  | nil => nofun
  | snoc _ hj _ ih =>
    intro e he
    rw [members_snoc]
    rcases mem_append.mp he with he | he
    · exact ⟨mem_append_left _ (ih e he).1,mem_append_left _ (ih e he).2⟩
    · rw [mem_singleton.mp he]
      exact ⟨mem_append_left _ hj,by simp⟩

/-- A node stands behind its parent. -/
theorem RootedTree.idxOf_lt [DecidableEq V] (h : RootedTree root g) :
    ∀ e ∈ g, (members root g).idxOf e.1 < (members root g).idxOf e.2 := by
  induction h with
  | nil => nofun
  | @snoc g j i hg hj hi ih =>
    intro e he
    rw [members_snoc]
    rcases mem_append.mp he with he | he
    · obtain ⟨h1,h2⟩ := hg.ends_mem e he
      rw [idxOf_append_of_mem h1,idxOf_append_of_mem h2]
      exact ih e he
    · rw [mem_singleton.mp he,idxOf_append_of_mem hj,idxOf_append_of_notMem hi]
      have := idxOf_lt_length_of_mem hj
      omega

theorem RootedTree.split (h : RootedTree root g) (he : (j, i) ∈ g) :
    ∃ a b c, members root g = a ++ j :: (b ++ i :: c) := by
  induction h with
  | nil => cases he
  | @snoc g k l _ hj _ ih =>
    rw [members_snoc]
    rcases mem_append.mp he with he | he
    · obtain ⟨a,b,c,hsplit⟩ := ih he
      exact ⟨a,b,c ++ [l],by simp [hsplit]⟩
    · obtain ⟨rfl,rfl⟩ := Prod.mk.inj (mem_singleton.mp he)
      obtain ⟨a,b,hsplit⟩ := append_of_mem hj
      exact ⟨a,b,[],by simp [hsplit]⟩

theorem RootedTree.parent_unique (h : RootedTree root g) (hj : (j, i) ∈ g) (hj' : (j', i) ∈ g) :
    j = j' := by
  induction h with
  | nil => cases hj
  | @snoc g k l hg _ hl ih =>
    have hin : ∀ {u}, (u, i) ∈ g → i ≠ l := fun hu he => hl (he ▸ (hg.ends_mem _ hu).2)
    rcases mem_append.mp hj with hj | hj <;> rcases mem_append.mp hj' with hj' | hj'
    · exact ih hj hj'
    · exact absurd (Prod.mk.inj (mem_singleton.mp hj')).2 (hin hj)
    · exact absurd (Prod.mk.inj (mem_singleton.mp hj)).2 (hin hj')
    · rw [(Prod.mk.inj (mem_singleton.mp hj)).1,(Prod.mk.inj (mem_singleton.mp hj')).1]

/-- The grown part is connected by its own edges. -/
theorem Growth.connected (h : Growth weight rels root g) (hsymm : ∀ x y, T x y → T y x)
    (hedges : ∀ e ∈ g, T e.1 e.2) :
    ∀ x ∈ members root g, Reach (within T {z | z ∈ members root g}) x root := by
  induction h with
  | nil =>
    intro x hx
    rw [mem_singleton.mp hx]
  | @snoc g j i _ hj _ _ _ ih =>
    have ih := ih (fun e he => hedges e (mem_append_left _ he))
    have hmono : ∀ p q, within T {z | z ∈ members root g} p q →
        within T {z | z ∈ members root (g ++ [(j, i)])} p q := by
      intro p q hpq
      rw [members_snoc]
      exact ⟨hpq.1,mem_append_left _ hpq.2.1,mem_append_left _ hpq.2.2⟩
    intro x hx
    rw [members_snoc] at hx
    rcases mem_append.mp hx with hx | hx
    · exact reach_mono hmono (ih x hx)
    rw [mem_singleton.mp hx]
    have hedge : T i j := hsymm j i (hedges (j, i) (by simp))
    refine .head ⟨hedge,?_,?_⟩ (reach_mono hmono (ih j hj))
    · simp [members_snoc]
    · rw [members_snoc]
      exact mem_append_left _ hj

theorem Growth.exists_joinTree
    (h : Growth (fun u v => (attrs u ∩ attrs v).card) rels root g) (hroot : root ∈ rels)
    (htree : ∃ T, JoinTree attrs {x | x ∈ rels} T) :
    ∃ T, JoinTree attrs {x | x ∈ rels} T ∧ ∀ e ∈ g, T e.1 e.2 := by
  induction h with
  | nil =>
    obtain ⟨T,ht⟩ := htree
    exact ⟨T,ht,nofun⟩
  | @snoc g j i hg hj hi hout hmax ih =>
    obtain ⟨T,ht,hedges⟩ := ih
    have hroots := hg.connected ht.symm hedges
    have hsymm := within_symm ht.symm {z | z ∈ members root g}
    obtain ⟨T',ht',hkeep,hnew⟩ := ht.extend
      (fun x hx => hg.members_subset hroot hx)
      (fun x hx y hy => (hroots x hx).trans (reach_symm hsymm (hroots y hy))) hj hi hout hmax
    refine ⟨T',ht',fun e he => ?_⟩
    rcases mem_append.mp he with he | he
    · obtain ⟨hl,hr⟩ := hg.rootedTree.ends_mem e he
      exact hkeep e.1 e.2 ⟨hedges e he,hl,hr⟩
    · rw [mem_singleton.mp he]
      exact hnew

/-- In a join tree, an edge that leaves a connected part carries everything the new
end shares with the part. -/
theorem JoinTree.ear_of_edge (ht : JoinTree attrs {x | x ∈ rels} T) (hsub : ∀ x ∈ C, x ∈ rels)
    (hedge : T j i) (hj : j ∈ C) (hi : i ∉ C) (hw : w ∈ C) (hconn : Reach (within T C) w j) :
    attrs i ∩ attrs w ⊆ attrs j := by
  intro a ha
  obtain ⟨hai,haw⟩ := Finset.mem_inter.mp ha
  have hirel : i ∈ rels := (ht.mem j i hedge).2
  by_contra haj
  -- a walk from i to w over relations with the attribute would go round the edge
  have havoid : Reach (without T j i) i w := by
    refine reach_mono ?_ (ht.meets a i hirel w (hsub w hw) hai haw)
    intro p q hpq
    refine ⟨hpq.1,?_⟩
    rintro (⟨rfl,rfl⟩ | ⟨rfl,rfl⟩)
    · exact haj hpq.2.1
    · exact haj hpq.2.2
  have hinside : Reach (without T j i) w j := by
    refine reach_mono ?_ hconn
    intro p q hpq
    refine ⟨hpq.1,?_⟩
    rintro (⟨rfl,rfl⟩ | ⟨rfl,rfl⟩)
    · exact hi hpq.2.2
    · exact hi hpq.2.1
  exact ht.bridge j i hedge (reach_symm (without_symm ht.symm j i) (havoid.trans hinside))

theorem Growth.congr (h : Growth weight rels root g) (hroot : root ∈ rels)
    (hw : ∀ u ∈ rels, ∀ v ∈ rels, u ≠ v → weight u v = weight' u v) :
    Growth weight' rels root g := by
  induction h with
  | nil => exact .nil
  | @snoc g j i hg hj hi hout hmax ih =>
    have hsub := hg.members_subset hroot
    have hne : ∀ {u v}, u ∈ members root g → v ∉ members root g → u ≠ v :=
      fun hu hv he => hv (he ▸ hu)
    refine ih.snoc hj hi hout (fun u hu v hv hvout => ?_)
    rw [← hw u (hsub hu) v hv (hne hu hvout),← hw j (hsub hj) i hi (hne hj hout)]
    exact hmax u hu v hv hvout

theorem Growth.ears (h : Growth (fun u v => (attrs u ∩ attrs v).card) rels root g)
    (hroot : root ∈ rels) (hacyclic : AlphaAcyclic attrs rels) : Ears attrs root g := by
  induction h with
  | nil => exact .nil
  | @snoc g j i hg hj hi hout hmax ih =>
    refine .snoc ih hj hout ?_
    intro w hw
    obtain ⟨T,ht,hedges⟩ := (hg.snoc hj hi hout hmax).exists_joinTree hroot
      hacyclic.exists_joinTree
    have hroots := hg.connected ht.symm (fun e he => hedges e (mem_append_left _ he))
    have hsymm := within_symm ht.symm {z | z ∈ members root g}
    exact ht.ear_of_edge (fun x hx => hg.members_subset hroot hx) (hedges (j, i) (by simp)) hj hout
      hw ((hroots w hw).trans (reach_symm hsymm (hroots j hj)))

end Growth

end PredTrans.Library
