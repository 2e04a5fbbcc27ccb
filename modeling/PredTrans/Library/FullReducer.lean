import PredTrans.Library.JoinTree

namespace PredTrans.Library
open List Function

/-! A bottom-up and a top-down pass of semijoins over a tree grown by ears leave
exactly the rows that extend to a solution of the whole join. -/

section FullReducer

variable {V A R B : Type*} [DecidableEq A]

/-- Two rows agree on the attributes their relations share. -/
def Agree (attrs : V → Finset A) (val : V → R → A → B) (x : V) (r : R) (y : V) (q : R) : Prop :=
  ∀ a ∈ attrs x ∩ attrs y, val x r a = val y q a

variable {attrs : V → Finset A} {val : V → R → A → B}

theorem Agree.symm (h : Agree attrs val x r y q) : Agree attrs val y q x r := by
  intro a ha
  rw [Finset.inter_comm] at ha
  exact (h a ha).symm

/-- One row of each relation, and any two agree. -/
structure Solution (attrs : V → Finset A) (val : V → R → A → B) (rows : V → Set R)
    (rels : List V) (ρ : V → R) : Prop where
  mem : ∀ x ∈ rels, ρ x ∈ rows x
  agree : ∀ x ∈ rels, ∀ y ∈ rels, Agree attrs val x (ρ x) y (ρ y)

/-- The rows after the pass towards the root and after the pass back. -/
structure Reduction (attrs : V → Finset A) (val : V → R → A → B) (root : V) (g : List (V × V))
    (rows up down : V → Set R) : Prop where
  up_iff : ∀ x ∈ members root g, ∀ r, r ∈ up x ↔
    r ∈ rows x ∧ ∀ i, (x, i) ∈ g → ∃ q ∈ up i, Agree attrs val x r i q
  down_iff : ∀ x ∈ members root g, ∀ r, r ∈ down x ↔
    r ∈ up x ∧ ∀ j, (j, x) ∈ g → ∃ q ∈ down j, Agree attrs val x r j q

variable {root : V} {g : List (V × V)} {rows up down : V → Set R} {ρ : V → R}

theorem Solution.addEar [DecidableEq V] (h : Solution attrs val rows rels ρ) (hj : j ∈ rels)
    (hi : i ∉ rels) (hear : ∀ w ∈ rels, attrs i ∩ attrs w ⊆ attrs j) (hr : r ∈ rows i)
    (hagree : Agree attrs val i r j (ρ j)) :
    Solution attrs val rows (rels ++ [i]) (update ρ i r) := by
  have hold : ∀ w ∈ rels, update ρ i r w = ρ w := by
    intro w hw
    exact update_of_ne (fun he : w = i => hi (he ▸ hw)) _ _
  have hnew : ∀ w ∈ rels, Agree attrs val i r w (ρ w) := by
    intro w hw a ha
    have haj := hear w hw ha
    obtain ⟨hai,haw⟩ := Finset.mem_inter.mp ha
    calc val i r a = val j (ρ j) a := hagree a (Finset.mem_inter.mpr ⟨hai,haj⟩)
      _ = val w (ρ w) a := h.agree j hj w hw a (Finset.mem_inter.mpr ⟨haj,haw⟩)
  constructor
  · intro w hw
    rcases mem_append.mp hw with hw | hw
    · rw [hold w hw]
      exact h.mem w hw
    · rw [mem_singleton.mp hw,update_self]
      exact hr
  · intro x hx y hy
    rcases mem_append.mp hx with hx | hx <;> rcases mem_append.mp hy with hy | hy
    · rw [hold x hx,hold y hy]
      exact h.agree x hx y hy
    · rw [hold x hx,mem_singleton.mp hy,update_self]
      exact (hnew x hx).symm
    · rw [hold y hy,mem_singleton.mp hx,update_self]
      exact hnew y hy
    · rw [mem_singleton.mp hx,mem_singleton.mp hy]
      exact fun _ _ => rfl

/-- Rows that find partners across every edge of the tree, both ways, extend to
a solution. -/
theorem Ears.exists_solution (h : Ears attrs root g)
    (hdown : ∀ j i, (j, i) ∈ g → ∀ r ∈ rows j, ∃ q ∈ rows i, Agree attrs val i q j r)
    (hup : ∀ j i, (j, i) ∈ g → ∀ r ∈ rows i, ∃ q ∈ rows j, Agree attrs val i r j q)
    (hx : x ∈ members root g) (hr : r ∈ rows x) :
    ∃ ρ, Solution attrs val rows (members root g) ρ ∧ ρ x = r := by
  classical
  induction h generalizing x r with
  | nil =>
    obtain rfl := mem_singleton.mp hx
    refine ⟨fun _ => r,⟨?_,?_⟩,rfl⟩
    · intro y hy
      rw [mem_singleton.mp hy]
      exact hr
    · intro y hy z hz
      rw [mem_singleton.mp hy,mem_singleton.mp hz]
      exact fun _ _ => rfl
  | @snoc g j i hg hj hi hear ih =>
    have ih := fun {x} hx {r} hr => ih
      (fun j i he => hdown j i (mem_append_left _ he))
      (fun j i he => hup j i (mem_append_left _ he)) (x := x) hx (r := r) hr
    have hedge : (j, i) ∈ g ++ [(j, i)] := by simp
    rw [members_snoc] at hx ⊢
    rcases mem_append.mp hx with hx | hx
    · obtain ⟨ρ,hρ,hρx⟩ := ih hx hr
      obtain ⟨q,hq,hagree⟩ := hdown j i hedge (ρ j) (hρ.mem j hj)
      refine ⟨_,hρ.addEar hj hi hear hq hagree,?_⟩
      rw [update_of_ne (fun he : x = i => hi (he ▸ hx)),hρx]
    · obtain rfl := mem_singleton.mp hx
      obtain ⟨q,hq,hagree⟩ := hup j x hedge r hr
      obtain ⟨ρ,hρ,rfl⟩ := ih hj hq
      exact ⟨_,hρ.addEar hj hi hear hr hagree,update_self _ _ _⟩

section

variable (h : Reduction attrs val root g rows up down) (hears : Ears attrs root g)
include h hears

theorem Reduction.solution_mem_up (hρ : Solution attrs val rows (members root g) ρ)
    (hx : x ∈ members root g) : ρ x ∈ up x := by
  classical
  -- children stand behind their parents, so the induction runs from the end
  induction hn : (members root g).length - (members root g).idxOf x using Nat.strong_induction_on
    generalizing x with
  | _ n ih =>
    rw [h.up_iff x hx]
    refine ⟨hρ.mem x hx,fun i hi => ?_⟩
    have hmem : i ∈ members root g := (hears.rootedTree.ends_mem _ hi).2
    have hlt := hears.rootedTree.idxOf_lt _ hi
    dsimp only at hlt
    have := idxOf_lt_length_of_mem hmem
    exact ⟨ρ i,ih _ (by omega) hmem rfl,hρ.agree x hx i hmem⟩

theorem Reduction.solution_mem_down (hρ : Solution attrs val rows (members root g) ρ)
    (hx : x ∈ members root g) : ρ x ∈ down x := by
  classical
  induction hn : (members root g).idxOf x using Nat.strong_induction_on generalizing x with
  | _ n ih =>
    rw [h.down_iff x hx]
    refine ⟨h.solution_mem_up hears hρ hx,fun j hj => ?_⟩
    obtain ⟨hmem,-⟩ := hears.rootedTree.ends_mem _ hj
    have hlt := hears.rootedTree.idxOf_lt _ hj
    dsimp only at hlt
    exact ⟨ρ j,ih _ (by omega) hmem rfl,hρ.agree x hx j hmem⟩

/-- What the second pass leaves are exactly the rows of solutions. -/
theorem Reduction.mem_down_iff (hx : x ∈ members root g) :
    r ∈ down x ↔ ∃ ρ, Solution attrs val rows (members root g) ρ ∧ ρ x = r := by
  constructor
  · intro hr
    have hup : ∀ j i, (j, i) ∈ g → ∀ r ∈ down i, ∃ q ∈ down j, Agree attrs val i r j q :=
      fun j i he r hr => ((h.down_iff i (hears.rootedTree.ends_mem _ he).2 r).mp hr).2 j he
    have hdown : ∀ j i, (j, i) ∈ g → ∀ r ∈ down j, ∃ q ∈ down i, Agree attrs val i q j r := by
      intro j i he r hr
      obtain ⟨hj,hi⟩ := hears.rootedTree.ends_mem _ he
      obtain ⟨q,hq,hagree⟩ := ((h.up_iff j hj r).mp ((h.down_iff j hj r).mp hr).1).2 i he
      refine ⟨q,(h.down_iff i hi q).mpr ⟨hq,fun j' he' => ?_⟩,hagree.symm⟩
      rw [hears.rootedTree.parent_unique he' he]
      exact ⟨r,hr,hagree.symm⟩
    obtain ⟨ρ,hρ,hρx⟩ := hears.exists_solution hdown hup hx hr
    refine ⟨ρ,⟨fun y hy => ?_,hρ.agree⟩,hρx⟩
    exact ((h.up_iff y hy _).mp ((h.down_iff y hy _).mp (hρ.mem y hy)).1).1
  · rintro ⟨ρ,hρ,rfl⟩
    exact h.solution_mem_down hears hρ hx

end

end FullReducer

end PredTrans.Library
