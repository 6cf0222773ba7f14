import Mathlib

/-!
# Connectivity of a symmetric relation

`Connected adj` is reachability along `adj`. How it changes when an edge is added (`connected_add`),
when an edge that is not needed is removed (`connected_of_detour`) and when one end of the removed
edge is left alone (`connected_of_leaf`). A `Transversal` has one vertex of each component; all
transversals have one length, the number of components.
-/

namespace Graph

variable {V : Type*} {adj adj' : V → V → Prop} {a b x y : V}

/-- There is a path from `a` to `b`. -/
def Connected (adj : V → V → Prop) (a b : V) : Prop := Relation.ReflTransGen adj a b

@[refl] theorem Connected.refl (a : V) : Connected adj a a := Relation.ReflTransGen.refl

theorem Connected.of_adj (h : adj a b) : Connected adj a b := Relation.ReflTransGen.single h

theorem Connected.trans {c : V} (h : Connected adj a b) (h' : Connected adj b c) : Connected adj a c :=
  Relation.ReflTransGen.trans h h'

theorem Connected.symm (hs : ∀ a b, adj a b → adj b a) (h : Connected adj a b) : Connected adj b a := by
  induction h with
  | refl => exact .refl _
  | tail _ hstep ih => exact (Connected.of_adj (hs _ _ hstep)).trans ih

theorem Connected.mono (hm : ∀ a b, adj a b → adj' a b) (h : Connected adj a b) : Connected adj' a b :=
  Relation.ReflTransGen.mono hm _ _ h

/-- Every step of the old relation has a detour in the new one. -/
theorem connected_of_detour (hd : ∀ a b, adj a b → Connected adj' a b) (h : Connected adj a b) :
    Connected adj' a b := by
  induction h with
  | refl => exact .refl _
  | tail _ hs ih => exact ih.trans (hd _ _ hs)

/-- A vertex without neighbours but itself is connected to nothing else. -/
theorem eq_of_isolated (hx : ∀ c, adj x c → c = x) (h : Connected adj x b) : b = x := by
  induction h with
  | refl => rfl
  | tail _ hs ih => subst ih; exact hx _ hs

/-- `x` loses its only edges, all to `y`: the other vertices stay connected. -/
theorem connected_of_leaf (hx : ∀ c, ¬adj' x c ∧ ¬adj' c x)
    (hd : ∀ a b, adj a b → adj' a b ∨ (a = x ∧ b = y) ∨ (a = y ∧ b = x))
    (h : Connected adj a b) (ha : a ≠ x) (hb : b ≠ x) : Connected adj' a b := by
  -- a path that goes into `x` comes from `y` and goes back there
  have key : (b ≠ x → Connected adj' a b) ∧ (b = x → Connected adj' a y) := by
    clear hb
    induction h with
    | refl => exact ⟨fun _ => .refl _, fun he => absurd he ha⟩
    | @tail b c _ hs ih =>
      rcases hd b c hs with hs' | ⟨rfl, rfl⟩ | ⟨rfl, rfl⟩
      · have hbx : b ≠ x := fun he => (hx c).1 (he ▸ hs')
        have hcx : c ≠ x := fun he => (hx b).2 (he ▸ hs')
        exact ⟨fun _ => (ih.1 hbx).trans (.of_adj hs'), fun he => absurd he hcx⟩
      · exact ⟨fun _ => ih.2 rfl, fun _ => ih.2 rfl⟩
      · refine ⟨fun he => absurd rfl he, fun _ => ?_⟩
        by_cases hbc : b = c
        · exact ih.2 hbc
        · exact ih.1 hbc
  exact key.1 hb

/-- A new edge between `x` and `y`. -/
theorem connected_add
    (hd : ∀ a b, adj' a b ↔ adj a b ∨ (a = x ∧ b = y) ∨ (a = y ∧ b = x)) :
    Connected adj' a b ↔ Connected adj a b ∨ (Connected adj a x ∧ Connected adj y b) ∨
      (Connected adj a y ∧ Connected adj x b) := by
  have hmono : ∀ {a b}, Connected adj a b → Connected adj' a b := fun h =>
    h.mono fun _ _ h => (hd _ _).2 (.inl h)
  constructor
  · intro h
    induction h with
    | refl => exact .inl (.refl _)
    | @tail b c _ hstep ih =>
      rcases (hd b c).1 hstep with hbc | ⟨rfl, rfl⟩ | ⟨rfl, rfl⟩
      · have hbc : Connected adj b c := .of_adj hbc
        exact ih.imp (·.trans hbc) (Or.imp (.imp_right (·.trans hbc)) (.imp_right (·.trans hbc)))
      · rcases ih with h | ⟨h, -⟩ | ⟨h, -⟩
        · exact .inr (.inl ⟨h, .refl _⟩)
        · exact .inr (.inl ⟨h, .refl _⟩)
        · exact .inl h
      · rcases ih with h | ⟨h, -⟩ | ⟨h, -⟩
        · exact .inr (.inr ⟨h, .refl _⟩)
        · exact .inl h
        · exact .inr (.inr ⟨h, .refl _⟩)
  · have hxy : Connected adj' x y := .of_adj ((hd _ _).2 (.inr (.inl ⟨rfl, rfl⟩)))
    have hyx : Connected adj' y x := .of_adj ((hd _ _).2 (.inr (.inr ⟨rfl, rfl⟩)))
    rintro (h | ⟨h, h'⟩ | ⟨h, h'⟩)
    · exact hmono h
    · exact (hmono h).trans (hxy.trans (hmono h'))
    · exact (hmono h).trans (hyx.trans (hmono h'))

/-- Labels that tell the components apart still do after an edge between `x` and `y` is added and the
component of `y` takes the label of `x`. -/
theorem relabel_add {L : Type*} {lab lab' : V → L} {live : V → Prop} (hs : ∀ a b, adj a b → adj b a)
    (hd : ∀ a b, adj' a b ↔ adj a b ∨ (a = x ∧ b = y) ∨ (a = y ∧ b = x)) (hx : live x)
    (hlab : ∀ a b, live a → live b → (lab a = lab b ↔ Connected adj a b))
    (hy : ∀ a, Connected adj y a → lab' a = lab x) (hn : ∀ a, ¬Connected adj y a → lab' a = lab a)
    (ha : live a) (hb : live b) : lab' a = lab' b ↔ Connected adj' a b := by
  rw [connected_add hd]
  by_cases hya : Connected adj y a <;> by_cases hyb : Connected adj y b
  · rw [hy a hya, hy b hyb]
    exact iff_of_true rfl (.inl ((hya.symm hs).trans hyb))
  · rw [hy a hya, hn b hyb, hlab x b hx hb]
    refine ⟨fun h => .inr (.inr ⟨hya.symm hs, h⟩), ?_⟩
    rintro (h | ⟨-, h⟩ | ⟨-, h⟩)
    · exact absurd (hya.trans h) hyb
    · exact absurd h hyb
    · exact h
  · rw [hn a hya, hy b hyb, hlab a x ha hx]
    refine ⟨fun h => .inr (.inl ⟨h, hyb⟩), ?_⟩
    rintro (h | ⟨h, -⟩ | ⟨h, -⟩)
    · exact absurd (hyb.trans (h.symm hs)) hya
    · exact h
    · exact absurd (h.symm hs) hya
  · rw [hn a hya, hn b hyb, hlab a b ha hb]
    refine ⟨.inl, ?_⟩
    rintro (h | ⟨-, h⟩ | ⟨h, -⟩)
    · exact h
    · exact absurd h hyb
    · exact absurd (h.symm hs) hya

/-! ## Components -/

/-- `reps` has exactly one vertex of each component of `nodes`. -/
structure Transversal (adj : V → V → Prop) (nodes reps : List V) : Prop where
  sub : ∀ a ∈ reps, a ∈ nodes
  apart : reps.Pairwise fun a b => ¬Connected adj a b
  cover : ∀ a ∈ nodes, ∃ b ∈ reps, Connected adj a b

theorem Transversal.length_le {nodes reps reps' : List V} (hs : ∀ a b, adj a b → adj b a)
    (h : Transversal adj nodes reps) (h' : Transversal adj nodes reps') : reps.length ≤ reps'.length := by
  classical
  -- the vertex of `reps'` in the component of `a`
  have hf : ∀ a, ∃ b, a ∈ reps → b ∈ reps' ∧ Connected adj a b := fun a => by
    by_cases ha : a ∈ reps
    · obtain ⟨b, hb, hab⟩ := h'.cover a (h.sub a ha)
      exact ⟨b, fun _ => ⟨hb, hab⟩⟩
    · exact ⟨a, fun h => absurd h ha⟩
  choose f hf using hf
  have hnd : (reps.map f).Nodup := by
    refine List.pairwise_map.2 (h.apart.imp_of_mem fun {a b} ha hb hab he => hab ?_)
    exact (hf a ha).2.trans (he ▸ (hf b hb).2.symm hs)
  have hsub : reps.map f ⊆ reps' := by
    intro b hb
    obtain ⟨a, ha, rfl⟩ := List.mem_map.1 hb
    exact (hf a ha).1
  calc reps.length = (reps.map f).length := (List.length_map ..).symm
    _ ≤ reps'.length := (hnd.subperm hsub).length_le

/-- The number of components does not depend on the choice of their representatives. -/
theorem Transversal.length_eq {nodes reps reps' : List V} (hs : ∀ a b, adj a b → adj b a)
    (h : Transversal adj nodes reps) (h' : Transversal adj nodes reps') : reps.length = reps'.length :=
  Nat.le_antisymm (h.length_le hs h') (h'.length_le hs h)

/-- `nodes` falls into `k` components. -/
def Components (adj : V → V → Prop) (nodes : List V) (k : Nat) : Prop :=
  ∃ reps, Transversal adj nodes reps ∧ reps.length = k

theorem Components.unique {nodes : List V} {k k' : Nat} (hs : ∀ a b, adj a b → adj b a)
    (h : Components adj nodes k) (h' : Components adj nodes k') : k = k' := by
  obtain ⟨_, hr, rfl⟩ := h
  obtain ⟨_, hr', rfl⟩ := h'
  exact hr.length_eq hs hr'

/-- A path of new edges through a transversal connects everything. -/
theorem Transversal.connects {nodes reps : List V} (hs : ∀ a b, adj' a b → adj' b a)
    (h : Transversal adj nodes reps) (hsub : ∀ a b, adj a b → adj' a b)
    (hpath : reps.IsChain fun a b => adj' a b) (ha : a ∈ nodes) (hb : b ∈ nodes) : Connected adj' a b := by
  obtain ⟨x, hx, hax⟩ := h.cover a ha
  obtain ⟨y, hy, hby⟩ := h.cover b hb
  have hfirst : ∀ {l : List V} {c d : V}, l.IsChain (fun a b => adj' a b) → c ∈ l.head? → d ∈ l →
      Connected adj' c d := by
    intro l
    induction l with
    | nil => intro c d _ hc _; simp at hc
    | cons z l ih =>
      intro c d hch hc hd
      obtain rfl : z = c := by simpa using hc
      rcases List.mem_cons.1 hd with rfl | hd
      · exact .refl _
      · cases l with
        | nil => cases hd
        | cons w l =>
          obtain ⟨hzw, hch⟩ := List.isChain_cons_cons.1 hch
          exact (Connected.of_adj hzw).trans (ih hch rfl hd)
  cases hreps : reps with
  | nil => rw [hreps] at hx; cases hx
  | cons c l =>
    rw [hreps] at hx hy hpath
    have hcx := hfirst hpath rfl hx
    have hcy := hfirst hpath rfl hy
    exact (hax.mono hsub).trans ((hcx.symm hs).trans (hcy.trans ((hby.mono hsub).symm hs)))

end Graph
