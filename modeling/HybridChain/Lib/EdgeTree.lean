import Mathlib.Data.List.Perm.Subperm
import Mathlib.Data.Set.Function
import Mathlib.Tactic

/-!
# Trees with labelled edges

A node carries data and a list of children, each under a label, in the order in which a traversal
visits them.

## Main definitions

* `Tree`, `fold`, `paths`, `modify`, `descend`, `digest`
* `Reordered`: trees that differ in the order of children only

## Main results

* `mem_paths_modify`, `uniform_modify`: what a change along a path does
* `leafDigests_eq_of_digest_eq`, `digest_eq_of_paths`: what a digest commits to
-/

namespace EdgeTree

open List

/-- A tree with data at its nodes and labels on its edges. -/
inductive Tree (β α : Type) where
  | node (a : α) (cs : List (β × Tree β α))

variable {β α γ τ δ : Type}

def Tree.data : Tree β α → α
  | .node a _ => a

def Tree.children : Tree β α → List (β × Tree β α)
  | .node _ cs => cs

/-! ## Recursion and induction -/

mutual

def fold (g : α → List (β × γ) → γ) : Tree β α → γ
  | .node a cs => g a (foldList g cs)

def foldList (g : α → List (β × γ) → γ) : List (β × Tree β α) → List (β × γ)
  | [] => []
  | (b, t) :: cs => (b, fold g t) :: foldList g cs

end

variable (g : α → List (β × γ) → γ)

lemma foldList_eq_map (cs : List (β × Tree β α)) :
    foldList g cs = cs.map fun c => (c.1, fold g c.2) := by
  induction cs with
  | nil => rfl
  | cons c cs ih => rw [foldList, ih, map_cons]

lemma fold_node (a : α) (cs : List (β × Tree β α)) :
    fold g (.node a cs) = g a (cs.map fun c => (c.1, fold g c.2)) := by
  rw [fold, foldList_eq_map]

/-- Induction on a tree, with the hypothesis for every child. -/
@[elab_as_elim]
theorem Tree.ind {P : Tree β α → Prop} (h : ∀ a cs, (∀ c ∈ cs, P c.2) → P (.node a cs)) : ∀ t, P t
  | .node a cs => h a cs (indList cs)
where
  /-- The induction for the children of a node. -/
  indList : ∀ cs : List (β × Tree β α), ∀ c ∈ cs, P c.2
    | [], _, hc => absurd hc not_mem_nil
    | (_, t) :: cs, c, hc => by
      rcases mem_cons.mp hc with rfl | hc
      · exact Tree.ind h t
      · exact indList cs c hc

/-! ## Traversal -/

/-- The data of a tree in preorder, each node contributing the list `f a`. -/
def preorder (f : α → List τ) : Tree β α → List τ := fold fun a rs => f a ++ rs.flatMap Prod.snd

lemma preorder_node (f : α → List τ) (a : α) (cs : List (β × Tree β α)) :
    preorder f (.node a cs) = f a ++ cs.flatMap fun c => preorder f c.2 := by
  rw [preorder, fold_node, flatMap_map]

def nodes : Tree β α → List α := preorder fun a => [a]

variable {cs : List (β × Tree β α)} {x a : α}

lemma mem_nodes :
    x ∈ nodes (.node a cs) ↔ x = a ∨ ∃ c ∈ cs, x ∈ nodes c.2 := by
  simp [nodes, preorder_node]

/-- Two trees are reorderings of each other: neighbouring children are swapped, at any node and
any number of times. -/
inductive Reordered : Tree β α → Tree β α → Prop
  | refl (t : Tree β α) : Reordered t t
  | swap (a : α) (l : List (β × Tree β α)) (c d : β × Tree β α) (r : List (β × Tree β α)) :
    Reordered (.node a (l ++ c :: d :: r)) (.node a (l ++ d :: c :: r))
  | child (a : α) (l : List (β × Tree β α)) (b : β) {t t' : Tree β α} (r : List (β × Tree β α)) :
    Reordered t t' → Reordered (.node a (l ++ (b, t) :: r)) (.node a (l ++ (b, t') :: r))
  | trans {t u v : Tree β α} : Reordered t u → Reordered u v → Reordered t v

namespace Reordered

/-- **A reordering lists the same data**, up to order. -/
theorem preorder_perm (f : α → List τ) {t u : Tree β α} (h : Reordered t u) :
    (preorder f t).Perm (preorder f u) := by
  induction h with
  | refl t => exact .refl _
  | swap a l c d r =>
    simp only [preorder_node]
    refine List.Perm.append_left _ (List.Perm.flatMap_right _ ?_)
    exact List.Perm.append_left _ (List.Perm.swap d c r)
  | child a l b r _ ih =>
    simp only [preorder_node, flatMap_append, flatMap_cons]
    exact .append_left _ (.append_left _ (.append_right _ ih))
  | trans _ _ ih₁ ih₂ => exact ih₁.trans ih₂

lemma of_perm (a : α) {ds : List (β × Tree β α)} (h : cs.Perm ds) :
    Reordered (.node a cs) (.node a ds) := by
  -- carry the children that come before, which the recursion on `Perm` strips off
  have key : ∀ l : List (β × Tree β α), Reordered (.node a (l ++ cs)) (.node a (l ++ ds)) := by
    induction h with
    | nil => intro l; exact .refl _
    | cons x _ ih =>
      intro l
      simpa using ih (l ++ [x])
    | swap x y r => intro l; exact .swap a l y x r
    | trans _ _ ih₁ ih₂ => intro l; exact (ih₁ l).trans (ih₂ l)
  simpa using key []

end Reordered

def Tree.map (f : α → γ) : Tree β α → Tree β γ := fold fun a cs => .node (f a) cs

variable (f : α → γ)

lemma Tree.map_node (a : α) (cs : List (β × Tree β α)) :
    (Tree.node a cs).map f = .node (f a) (cs.map fun c => (c.1, c.2.map f)) :=
  fold_node _ a cs

lemma preorder_map (g : γ → List τ) (t : Tree β α) :
    preorder g (t.map f) = preorder (fun a => g (f a)) t := by
  induction t using Tree.ind with
  | h a cs ih =>
    rw [Tree.map_node, preorder_node, preorder_node, flatMap_map]
    congr 1
    exact flatMap_congr ih

lemma nodes_map (t : Tree β α) : nodes (t.map f) = (nodes t).map f := by
  induction t using Tree.ind with
  | h a cs ih =>
    rw [Tree.map_node, nodes, nodes, preorder_node, preorder_node, flatMap_map,
      map_append, map_flatMap]
    congr 1
    exact flatMap_congr ih

lemma Reordered.map {t u : Tree β α} (h : Reordered t u) :
    Reordered (t.map f) (u.map f) := by
  induction h with
  | refl t => exact .refl _
  | swap a l c d r =>
    simp only [Tree.map_node, map_append, map_cons]
    exact .swap _ _ _ _ _
  | child a l b r _ ih =>
    simp only [Tree.map_node, map_append, map_cons]
    exact .child _ _ _ _ ih
  | trans _ _ ih₁ ih₂ => exact ih₁.trans ih₂

/-! ## Uniform trees -/

section Uniform

variable (isLeaf : α → Bool)

/-- All leaves have depth `n` and no children, every other node but the root has at least one, and
the labels below a node are distinct. -/
def Uniform : ℕ → Tree β α → Prop
  | 0, .node a cs => isLeaf a = true ∧ cs = []
  | n + 1, .node a cs =>
    isLeaf a = false ∧ (cs.map Prod.fst).Nodup ∧
      ∀ c ∈ cs, (n ≠ 0 → c.2.children ≠ []) ∧ Uniform n c.2

/-- The data at depth `n`, with the labels on the way to it. -/
def paths : ℕ → Tree β α → List (List β × α)
  | 0, .node a _ => [([], a)]
  | n + 1, .node _ cs => cs.flatMap fun c => (paths n c.2).map fun e => (c.1 :: e.1, e.2)

variable {t : Tree β α} {n : ℕ} {p : List β} {cs : List (β × Tree β α)} {f : α → List τ} {a x : α}

lemma mem_paths_succ :
    (p, x) ∈ paths (n + 1) (.node a cs) ↔ ∃ c ∈ cs, ∃ q, (q, x) ∈ paths n c.2 ∧ p = c.1 :: q := by
  simp only [paths, mem_flatMap, mem_map, Prod.mk.injEq, Prod.exists]
  constructor
  · rintro ⟨b, t, hc, q, y, hq, rfl, rfl⟩
    exact ⟨b, t, hc, q, hq, rfl⟩
  · rintro ⟨b, t, hc, q, hq, rfl⟩
    exact ⟨b, t, hc, q, x, hq, rfl, rfl⟩

lemma cons_mem_paths {b : β} :
    (b :: p, x) ∈ paths (n + 1) (.node a cs) ↔ ∃ t, (b, t) ∈ cs ∧ (p, x) ∈ paths n t := by
  rw [mem_paths_succ]
  constructor
  · rintro ⟨⟨c, t⟩, hc, q, hq, h⟩
    obtain ⟨rfl, rfl⟩ := List.cons.inj h
    exact ⟨t, hc, hq⟩
  · rintro ⟨t, ht, hp⟩
    exact ⟨(b, t), ht, p, hp, rfl⟩

lemma length_of_mem_paths {x : α} (h : (p, x) ∈ paths n t) : p.length = n := by
  induction n generalizing t p with
  | zero =>
    obtain ⟨a, cs⟩ := t
    simp only [paths, mem_singleton, Prod.mk.injEq] at h
    rw [h.1, length_nil]
  | succ n ih =>
    obtain ⟨a, cs⟩ := t
    obtain ⟨c, _, q, hq, rfl⟩ := mem_paths_succ.mp h
    rw [length_cons, ih hq]

lemma uniform_map_iff {f : α → α} (hf : ∀ a, isLeaf (f a) = isLeaf a) :
    Uniform isLeaf n (t.map f) ↔ Uniform isLeaf n t := by
  induction n generalizing t with
  | zero =>
    obtain ⟨a, cs⟩ := t
    simp [Tree.map_node, Uniform, hf]
  | succ n ih =>
    obtain ⟨a, cs⟩ := t
    have hchildren : ∀ u : Tree β α, (u.map f).children = [] ↔ u.children = [] := by
      rintro ⟨b, ds⟩
      simp [Tree.map_node, Tree.children]
    simp only [Tree.map_node, Uniform, hf, map_map, Function.comp_def, forall_mem_map, ih,
      ne_eq, hchildren]

variable {isLeaf}

lemma Uniform.exists_mem_paths (h : Uniform isLeaf n t)
    (hne : n ≠ 0 → t.children ≠ []) : ∃ p x, (p, x) ∈ paths n t := by
  induction n generalizing t with
  | zero =>
    obtain ⟨a, cs⟩ := t
    exact ⟨[], a, by simp [paths]⟩
  | succ n ih =>
    obtain ⟨a, cs⟩ := t
    obtain ⟨-, -, hall⟩ := h
    obtain ⟨c, hc⟩ := exists_mem_of_ne_nil cs (hne (by omega))
    obtain ⟨p, x, hp⟩ := ih (hall c hc).2 (hall c hc).1
    exact ⟨c.1 :: p, x, mem_paths_succ.mpr ⟨c, hc, p, hp, rfl⟩⟩

lemma Uniform.exists_path_of_mem_nodes (h : Uniform isLeaf n t) {x : α}
    (hx : x ∈ nodes t) (hleaf : isLeaf x = true) : ∃ p, (p, x) ∈ paths n t := by
  induction n generalizing t with
  | zero =>
    obtain ⟨a, cs⟩ := t
    obtain ⟨-, rfl⟩ := h
    obtain rfl : x = a := by simpa [mem_nodes] using hx
    exact ⟨[], by simp [paths]⟩
  | succ n ih =>
    obtain ⟨a, cs⟩ := t
    obtain ⟨ha, -, hall⟩ := h
    rcases mem_nodes.mp hx with rfl | ⟨c, hc, hx⟩
    · simp [ha] at hleaf
    · obtain ⟨p, hp⟩ := ih (hall c hc).2 hx
      exact ⟨c.1 :: p, mem_paths_succ.mpr ⟨c, hc, p, hp, rfl⟩⟩

lemma Uniform.nodup_paths (h : Uniform isLeaf n t) : ((paths n t).map Prod.fst).Nodup := by
  induction n generalizing t with
  | zero =>
    obtain ⟨a, cs⟩ := t
    simp [paths]
  | succ n ih =>
    obtain ⟨a, cs⟩ := t
    obtain ⟨-, hnd, hall⟩ := h
    rw [paths, map_flatMap, nodup_flatMap]
    refine ⟨fun c hc => ?_, ?_⟩
    · have hmap : ((paths n c.2).map fun e => (c.1 :: e.1, e.2)).map Prod.fst =
          ((paths n c.2).map Prod.fst).map (c.1 :: ·) := by simp
      rw [hmap]
      exact (ih (hall c hc).2).map cons_injective
    · -- paths below different children start with different labels
      rw [nodup_iff_pairwise_ne, pairwise_map] at hnd
      refine hnd.imp fun {c d} hcd p hp hq => ?_
      simp only [map_map, mem_map, Function.comp_apply] at hp hq
      obtain ⟨_, _, rfl⟩ := hp
      obtain ⟨_, _, hq⟩ := hq
      exact hcd (List.cons.inj hq).1.symm

lemma Uniform.preorder_eq (hf : ∀ a, isLeaf a = false → f a = []) (h : Uniform isLeaf n t) :
    preorder f t = (paths n t).flatMap fun e => f e.2 := by
  induction n generalizing t with
  | zero =>
    obtain ⟨a, cs⟩ := t
    simp [preorder_node, paths, h.2]
  | succ n ih =>
    obtain ⟨a, cs⟩ := t
    obtain ⟨ha, -, hall⟩ := h
    rw [preorder_node, hf a ha, nil_append, paths, flatMap_assoc]
    refine flatMap_congr fun c hc => ?_
    rw [ih (hall c hc).2, flatMap_map]

/-- **Some reordering lists a given entry last.**

**Proof sketch.** Induction on the depth: the child that holds the entry is reordered so that
the entry comes last in it, and is moved behind its siblings. -/
theorem exists_reordered_last (hf : ∀ a, isLeaf a = false → f a = [])
    (hone : ∀ a, (f a).length ≤ 1) (h : Uniform isLeaf n t) {x : τ}
    (hx : x ∈ preorder f t) : ∃ u l, Reordered t u ∧ preorder f u = l ++ [x] := by
  induction n generalizing t with
  | zero =>
    obtain ⟨a, cs⟩ := t
    obtain ⟨-, rfl⟩ := h
    refine ⟨_, [], .refl _, ?_⟩
    have hmem : x ∈ f a := by simpa [preorder_node] using hx
    obtain ⟨y, hy⟩ := length_eq_one_iff.mp (le_antisymm (hone a) (length_pos_of_mem hmem))
    have hxy : x = y := by simpa [hy] using hmem
    simp [preorder_node, hy, hxy]
  | succ n ih =>
    obtain ⟨a, cs⟩ := t
    obtain ⟨ha, -, hall⟩ := h
    rw [preorder_node, hf a ha, nil_append, mem_flatMap] at hx
    obtain ⟨⟨b, c⟩, hc, hx⟩ := hx
    obtain ⟨u, l, hcu, hu⟩ := ih (hall _ hc).2 hx
    obtain ⟨ls, rs, rfl⟩ := append_of_mem hc
    refine ⟨.node a ((ls ++ rs) ++ [(b, u)]), ((ls ++ rs).flatMap fun c => preorder f c.2) ++ l,
      ?_, ?_⟩
    · refine (Reordered.child a ls b rs hcu).trans (Reordered.of_perm a ?_)
      rw [append_assoc]
      exact List.Perm.append_left ls (perm_append_singleton _ _).symm
    · rw [preorder_node, hf a ha, flatMap_append]
      simp [hu]

namespace Reordered

lemma children_eq_nil {t u : Tree β α} (h : Reordered t u) : t.children = [] ↔ u.children = [] := by
  induction h with
  | refl t => exact Iff.rfl
  | swap a l c d r | child a l b r _ _ => simp [Tree.children]
  | trans _ _ ih₁ ih₂ => exact ih₁.trans ih₂

lemma uniform {n : ℕ} {t u : Tree β α} (h : Reordered t u) (ht : Uniform isLeaf n t) :
    Uniform isLeaf n u := by
  induction h generalizing n with
  | refl t => exact ht
  | swap a l c d r =>
    have hperm : (l ++ c :: d :: r).Perm (l ++ d :: c :: r) :=
      List.Perm.append_left l (List.Perm.swap d c r)
    cases n with
    | zero => exact absurd ht.2 (by simp)
    | succ n =>
      obtain ⟨ha, hnd, hall⟩ := ht
      exact ⟨ha, (hperm.map _).nodup_iff.mp hnd, fun e he => hall e (hperm.mem_iff.mpr he)⟩
  | child a l b r hr ih =>
    cases n with
    | zero => exact absurd ht.2 (by simp)
    | succ n =>
      obtain ⟨ha, hnd, hall⟩ := ht
      refine ⟨ha, by simpa using hnd, fun e he => ?_⟩
      rcases mem_append.mp he with he | he
      · exact hall e (by simp [he])
      · rcases mem_cons.mp he with rfl | he
        · have hb := hall (b, _) (mem_append_right l (mem_cons_self ..))
          exact ⟨fun hn => mt hr.children_eq_nil.mpr (hb.1 hn), ih hb.2⟩
        · exact hall e (by simp [he])
  | trans _ _ ih₁ ih₂ => exact ih₂ (ih₁ ht)

lemma paths_perm (n : ℕ) {t u : Tree β α} (h : Reordered t u) : (paths n t).Perm (paths n u) := by
  induction h generalizing n with
  | refl t => exact .refl _
  | swap a l c d r =>
    cases n with
    | zero => exact .refl _
    | succ n => exact List.Perm.flatMap_right _ (List.Perm.append_left l (List.Perm.swap d c r))
  | child a l b r _ ih =>
    cases n with
    | zero => exact .refl _
    | succ n =>
      simp only [paths, flatMap_append, flatMap_cons]
      exact .append_left _ (.append_right _ ((ih n).map _))
  | trans _ _ ih₁ ih₂ => exact (ih₁ n).trans (ih₂ n)

end Reordered

end Uniform

/-! ## Writing along a path -/

section Modify

variable [DecidableEq β] (fresh : α)

/-- Apply `g` to the child under a label, or to a fresh node that is added under it. -/
def upsert (b : β) (g : Tree β α → Tree β α) : List (β × Tree β α) → List (β × Tree β α)
  | [] => [(b, g (.node fresh []))]
  | (c, t) :: cs => if c = b then (c, g t) :: cs else (c, t) :: upsert b g cs

/-- Change the data at the end of a path by `f` and on the way to it by `touch`, making the nodes
that are missing. -/
def modify (touch f : α → α) : List β → Tree β α → Tree β α
  | [], .node a cs => .node (f a) cs
  | b :: p, .node a cs => .node (touch a) (upsert fresh b (modify touch f p) cs)

variable {fresh}

/-- What `upsert` does: a child under the label is changed in place, otherwise a fresh one is
added behind the others. -/
lemma upsert_cases (fresh : α) (b : β) (g : Tree β α → Tree β α) (cs : List (β × Tree β α)) :
    (b ∉ cs.map Prod.fst ∧ upsert fresh b g cs = cs ++ [(b, g (.node fresh []))]) ∨
      ∃ l t r, cs = l ++ (b, t) :: r ∧ upsert fresh b g cs = l ++ (b, g t) :: r := by
  induction cs with
  | nil => exact .inl ⟨by simp, rfl⟩
  | cons c cs ih =>
    obtain ⟨c, u⟩ := c
    by_cases hc : c = b
    · subst hc
      exact .inr ⟨[], u, cs, rfl, by simp [upsert]⟩
    · rw [upsert, if_neg hc]
      rcases ih with ⟨hb, heq⟩ | ⟨l, t, r, rfl, heq⟩
      · exact .inl ⟨by simpa [Ne.symm hc] using hb, by rw [heq, cons_append]⟩
      · exact .inr ⟨(c, u) :: l, t, r, rfl, by rw [heq, cons_append]⟩

variable {cs : List (β × Tree β α)} {b : β} {g : Tree β α → Tree β α}

lemma mem_upsert {c : β × Tree β α} (hc : c ∈ upsert fresh b g cs) :
    c ∈ cs ∨ ∃ t, (t = .node fresh [] ∨ (b, t) ∈ cs) ∧ c = (b, g t) := by
  rcases upsert_cases fresh b g cs with ⟨-, heq⟩ | ⟨l, t, r, rfl, heq⟩ <;> rw [heq] at hc
  · grind
  · grind

lemma nodup_upsert (hnd : (cs.map Prod.fst).Nodup) :
    ((upsert fresh b g cs).map Prod.fst).Nodup := by
  rcases upsert_cases fresh b g cs with ⟨hb, heq⟩ | ⟨l, t, r, rfl, heq⟩ <;> rw [heq]
  · rw [map_append]
    exact List.Nodup.append hnd (by simp) (by simpa using hb)
  · simpa using hnd

variable {isLeaf : α → Bool} {touch f : α → α} {p : List β} {t : Tree β α}

lemma forall_mem_nodes_modify {P : α → Prop} (hfresh : P fresh) (htouch : ∀ a, P a → P (touch a))
    (hf : ∀ a, P a → P (f a)) (h : ∀ a ∈ nodes t, P a) :
    ∀ a ∈ nodes (modify fresh touch f p t), P a := by
  induction p generalizing t with
  | nil =>
    obtain ⟨a, cs⟩ := t
    intro x hx
    rcases mem_nodes.mp hx with rfl | hx
    · exact hf a (h a (mem_nodes.mpr (.inl rfl)))
    · exact h x (mem_nodes.mpr (.inr hx))
  | cons b p ih =>
    obtain ⟨a, cs⟩ := t
    have hchild : ∀ c ∈ cs, ∀ x ∈ nodes c.2, P x := fun c hc x hx =>
      h x (mem_nodes.mpr (.inr ⟨c, hc, hx⟩))
    have hnew : ∀ x ∈ nodes (Tree.node (β := β) fresh []), P x := by
      intro x hx
      rcases mem_nodes.mp hx with rfl | ⟨c, hc, -⟩
      · exact hfresh
      · simp at hc
    intro x hx
    rw [modify] at hx
    rcases mem_nodes.mp hx with rfl | ⟨c, hc, hxc⟩
    · exact htouch a (h a (mem_nodes.mpr (.inl rfl)))
    rcases mem_upsert hc with hc | ⟨u, rfl | hu, rfl⟩
    · exact hchild c hc x hxc
    · exact ih hnew x hxc
    · exact ih (hchild (b, u) hu) x hxc

lemma children_modify_ne_nil (hp : p ≠ []) (t : Tree β α) :
    (modify fresh touch f p t).children ≠ [] := by
  obtain ⟨a, cs⟩ := t
  cases p with
  | nil => exact absurd rfl hp
  | cons b p =>
    rcases upsert_cases fresh b (modify fresh touch f p) cs with
      ⟨-, heq⟩ | ⟨l, t, r, -, heq⟩ <;>
      simp [modify, Tree.children, heq]

omit [DecidableEq β] in
/-- The children below a root that is fresh or that of a uniform tree. -/
lemma children_of_uniform {n : ℕ} {a : α}
    (h : .node a cs = Tree.node fresh [] ∨ Uniform isLeaf (n + 1) (.node a cs)) :
    (a = fresh ∨ isLeaf a = false) ∧ (cs.map Prod.fst).Nodup ∧
      ∀ c ∈ cs, (n ≠ 0 → c.2.children ≠ []) ∧ Uniform isLeaf n c.2 := by
  rcases h with h | h
  · obtain ⟨rfl, rfl⟩ := Tree.node.inj h
    exact ⟨.inl rfl, by simp, by simp⟩
  · exact ⟨.inr h.1, h.2⟩

/-- Writing along a path of length `n` keeps a tree of depth `n` uniform, and makes one out of a
fresh node. -/
theorem uniform_modify (htouch : ∀ a, isLeaf (touch a) = isLeaf a) (hf : ∀ a, isLeaf (f a) = true)
    (hfresh : isLeaf fresh = false) (h : t = .node fresh [] ∨ Uniform isLeaf p.length t) :
    Uniform isLeaf p.length (modify fresh touch f p t) := by
  induction p generalizing t with
  | nil =>
    obtain ⟨a, cs⟩ := t
    refine ⟨hf a, ?_⟩
    rcases h with h | h
    · exact (Tree.node.inj h).2
    · exact h.2
  | cons b p ih =>
    obtain ⟨a, cs⟩ := t
    obtain ⟨ha, hnd, hall⟩ := children_of_uniform h
    have hleaf : isLeaf a = false := ha.elim (fun heq => heq ▸ hfresh) id
    have hne : ∀ u : Tree β α, p.length ≠ 0 → (modify fresh touch f p u).children ≠ [] :=
      fun u hp => children_modify_ne_nil (ne_nil_of_length_pos (Nat.pos_of_ne_zero hp)) u
    refine ⟨(htouch a).trans hleaf, nodup_upsert hnd, fun c hc => ?_⟩
    rcases mem_upsert hc with hc | ⟨u, hu, rfl⟩
    · exact hall c hc
    · exact ⟨hne u, ih (hu.imp_right fun hu => (hall _ hu).2)⟩

omit [DecidableEq β] in
lemma not_mem_paths_fresh (fresh : α) {p q : List β} (hq : q ≠ p) (y : α) :
    (q, y) ∉ paths p.length (.node fresh []) := by
  intro h
  have hlen := length_of_mem_paths h
  cases p with
  | nil => exact hq (length_eq_zero_iff.mp hlen)
  | cons b p => simp [paths] at h

/-- **Writing along a path** changes the data at its end and nowhere else. -/
theorem mem_paths_modify (hf : ∀ a, f a = x)
    (h : t = .node fresh [] ∨ Uniform isLeaf p.length t) {q : List β} {y : α} :
    (q, y) ∈ paths p.length (modify fresh touch f p t) ↔
      (q = p ∧ y = x) ∨ (q ≠ p ∧ (q, y) ∈ paths p.length t) := by
  induction p generalizing t q with
  | nil =>
    obtain ⟨a, cs⟩ := t
    simp only [modify, length_nil, paths, mem_singleton, Prod.mk.injEq, hf]
    tauto
  | cons b p ih =>
    obtain ⟨a, cs⟩ := t
    obtain ⟨-, hnd, hall⟩ := children_of_uniform h
    rw [modify, length_cons]
    cases q with
    | nil =>
      -- no path to a positive depth is empty
      have hnil : ∀ u : Tree β α, ([], y) ∉ paths (p.length + 1) u := fun u hu =>
        absurd (length_of_mem_paths hu) (by simp)
      simp [hnil]
    | cons d q =>
      rw [cons_mem_paths, cons_mem_paths, List.cons.injEq, Ne, List.cons.injEq]
      rcases upsert_cases fresh b (modify fresh touch f p) cs with
        ⟨hb, heq⟩ | ⟨l, t, r, rfl, heq⟩
      · rw [heq]
        by_cases hd : d = b
        · subst hd
          have hout : ∀ u, (d, u) ∉ cs := fun u hu => hb (mem_map.mpr ⟨_, hu, rfl⟩)
          have hfresh := fun hq : q ≠ p => not_mem_paths_fresh fresh hq y
          simp only [mem_append, hout, false_or, mem_singleton, Prod.mk.injEq, true_and,
            exists_eq_left, ih (.inl rfl), false_and, exists_false, and_false, or_false]
          exact or_iff_left fun hq => hfresh hq.1 hq.2
        · simp [hd]
      · rw [heq]
        rw [map_append, map_cons, nodup_middle, nodup_cons] at hnd
        by_cases hd : d = b
        · subst hd
          have hout : ∀ u, (d, u) ∉ l ∧ (d, u) ∉ r := fun u =>
            ⟨fun hu => hnd.1 (mem_append_left _ (mem_map.mpr ⟨_, hu, rfl⟩)),
              fun hu => hnd.1 (mem_append_right _ (mem_map.mpr ⟨_, hu, rfl⟩))⟩
          simp [hout, ih (.inr (hall (d, t) (by simp)).2)]
        · simp [hd]

/-- Changing the data of all nodes commutes with writing along a path when it commutes with the
changes made there. -/
lemma map_modify {h : α → α} (hfresh : h fresh = fresh) (htouch : ∀ a, h (touch a) = touch (h a))
    (hf : ∀ a, h (f a) = f (h a)) (p : List β) (t : Tree β α) :
    (modify fresh touch f p t).map h = modify fresh touch f p (t.map h) := by
  induction p generalizing t with
  | nil =>
    obtain ⟨a, cs⟩ := t
    simp only [modify, Tree.map_node, hf]
  | cons b p ih =>
    obtain ⟨a, cs⟩ := t
    have hcs : (upsert fresh b (modify fresh touch f p) cs).map (fun c => (c.1, c.2.map h)) =
        upsert fresh b (modify fresh touch f p) (cs.map fun c => (c.1, c.2.map h)) := by
      induction cs with
      | nil => simp [upsert, ih, Tree.map_node, hfresh]
      | cons c cs ihcs =>
        obtain ⟨c, u⟩ := c
        by_cases hc : c = b
        · simp [upsert, hc, ih]
        · simp only [upsert, if_neg hc, map_cons, ihcs]
    rw [modify, Tree.map_node, hcs, htouch, Tree.map_node, modify]

/-! ### Rearranging along a path -/

/-- As `modify`, with the children of the nodes on the way rearranged. The first path is that of
the tree itself. -/
def modifyIn (fresh : α) (touch f : α → α)
    (arrange : List β → List (β × Tree β α) → List (β × Tree β α)) :
    List β → List β → Tree β α → Tree β α
  | _, [], .node a cs => .node (f a) cs
  | q, b :: p, .node a cs =>
    .node (touch a) (arrange q (upsert fresh b (modifyIn fresh touch f arrange (q ++ [b]) p) cs))

variable (fresh) in
lemma Reordered.upsert {g g' : Tree β α → Tree β α} (hg : ∀ t, Reordered (g t) (g' t)) (a : α)
    (b : β) (l cs : List (β × Tree β α)) : Reordered (.node a (l ++ upsert fresh b g cs))
      (.node a (l ++ EdgeTree.upsert fresh b g' cs)) := by
  induction cs generalizing l with
  | nil => exact .child a l b [] (hg _)
  | cons c cs ih =>
    obtain ⟨c, t⟩ := c
    rw [EdgeTree.upsert, EdgeTree.upsert]
    split_ifs
    · exact .child a l c cs (hg t)
    · simpa using ih (l ++ [(c, t)])

lemma reordered_modifyIn {arrange : List β → List (β × Tree β α) → List (β × Tree β α)}
    (harrange : ∀ q cs, (arrange q cs).Perm cs) (p q : List β) (t : Tree β α) :
    Reordered (modify fresh touch f p t) (modifyIn fresh touch f arrange q p t) := by
  induction p generalizing q t with
  | nil =>
    obtain ⟨a, cs⟩ := t
    exact .refl _
  | cons b p ih =>
    obtain ⟨a, cs⟩ := t
    have hchild := Reordered.upsert fresh (fun t => ih (q ++ [b]) t) (touch a) b [] cs
    exact hchild.trans (.of_perm _ (harrange q _).symm)

end Modify

/-! ## Reading along a path -/

section Descend

variable [DecidableEq β] {isLeaf : α → Bool}

def descend : List β → Tree β α → Option (Tree β α)
  | [], t => some t
  | b :: p, .node _ cs => (cs.find? fun c => c.1 = b).bind fun c => descend p c.2

lemma find?_label_eq_some_iff (hnd : (cs.map Prod.fst).Nodup) {b : β}
    {c : β × Tree β α} : cs.find? (fun c => c.1 = b) = some c ↔ c ∈ cs ∧ c.1 = b := by
  constructor
  · intro h
    exact ⟨mem_of_find?_eq_some h, by simpa using List.find?_some h⟩
  · rintro ⟨hc, rfl⟩
    obtain ⟨d, hd⟩ := Option.isSome_iff_exists.mp
      (List.find?_isSome.mpr ⟨c, hc, by simp⟩ : (cs.find? fun d => d.1 = c.1).isSome)
    have hlabel : d.1 = c.1 := by simpa using List.find?_some hd
    rw [hd, inj_on_of_nodup_map hnd (mem_of_find?_eq_some hd) hc hlabel]

/-- **A path of a uniform tree leads to the data at its end.** -/
theorem Uniform.data_descend_eq_some_iff {n : ℕ} {t : Tree β α} (h : Uniform isLeaf n t)
    {p : List β} (hp : p.length = n) :
    (descend p t).map Tree.data = some x ↔ (p, x) ∈ paths n t := by
  induction n generalizing t p with
  | zero =>
    obtain ⟨a, cs⟩ := t
    obtain rfl := length_eq_zero_iff.mp hp
    simp [descend, paths, Tree.data, eq_comm]
  | succ n ih =>
    obtain ⟨a, cs⟩ := t
    obtain ⟨-, hnd, hall⟩ := h
    obtain ⟨b, p, rfl⟩ := exists_cons_of_length_eq_add_one hp
    have hlen : p.length = n := Nat.succ.inj hp
    rw [cons_mem_paths, descend, Option.map_bind, Option.bind_eq_some_iff]
    constructor
    · rintro ⟨c, hc, hx⟩
      obtain ⟨hmem, rfl⟩ := (find?_label_eq_some_iff hnd).mp hc
      exact ⟨c.2, hmem, (ih (hall c hmem).2 hlen).mp hx⟩
    · rintro ⟨u, hu, hx⟩
      exact ⟨(b, u), (find?_label_eq_some_iff hnd).mpr ⟨hu, rfl⟩, (ih (hall _ hu).2 hlen).mpr hx⟩

lemma descend_map {f : α → γ} (p : List β) (t : Tree β α) :
    descend p (t.map f) = (descend p t).map (Tree.map f) := by
  induction p generalizing t with
  | nil => rfl
  | cons b p ih =>
    obtain ⟨a, cs⟩ := t
    rw [Tree.map_node, descend, descend, List.find?_map, Option.bind_map, Option.map_bind]
    exact congrArg (Option.bind _) (funext fun c => ih c.2)

end Descend

/-! ## Spines -/

/-- The tree of a single path: `fresh` at the nodes, `x` at its end. -/
def spine (fresh x : α) : List β → Tree β α
  | [] => .node x []
  | b :: p => .node fresh [(b, spine fresh x p)]

lemma modify_fresh [DecidableEq β] {fresh : α} {touch f : α → α} (htouch : touch fresh = fresh)
    (hf : f fresh = x) (p : List β) :
    modify fresh touch f p (.node fresh []) = spine fresh x p := by
  induction p with
  | nil => rw [modify, hf, spine]
  | cons b p ih => rw [modify, htouch, upsert, ih, spine]

lemma Reordered.eq_spine {fresh : α} {t u : Tree β α} (h : Reordered t u) :
    ∀ p : List β, t = spine fresh x p → u = spine fresh x p := by
  induction h with
  | refl t => exact fun p hp => hp
  | swap a l c d r =>
    intro p hp
    exfalso
    cases p with
    | nil => simp [spine] at hp
    | cons b p =>
      have hlen : l.length + (r.length + 1 + 1) = 1 := by
        simpa using congrArg List.length (Tree.node.inj hp).2
      omega
  | child a l b r _ ih =>
    intro p hp
    cases p with
    | nil => simp [spine] at hp
    | cons c p =>
      obtain ⟨rfl, hcs⟩ := Tree.node.inj hp
      have hlen : l.length + (r.length + 1) = 1 := by simpa using congrArg List.length hcs
      obtain rfl : l = [] := length_eq_zero_iff.mp (by omega)
      obtain rfl : r = [] := length_eq_zero_iff.mp (by omega)
      obtain ⟨rfl, ht⟩ := Prod.mk.inj (singleton_inj.mp hcs)
      rw [ih p ht]
      rfl
  | trans _ _ ih₁ ih₂ => exact fun p hp => ih₂ p (ih₁ p hp)

/-! ## Digests -/

section Digest

variable (isLeaf : α → Bool) (leafDigest : α → δ) (combine : List δ → δ)

/-- The digest of a tree: that of the data at a leaf, and elsewhere combined from the digests of
the children in their order. -/
def digest : Tree β α → δ :=
  fold fun a rs => if isLeaf a then leafDigest a else combine (rs.map Prod.snd)

lemma digest_node (a : α) (cs : List (β × Tree β α)) :
    digest isLeaf leafDigest combine (.node a cs) = if isLeaf a then leafDigest a
      else combine (cs.map fun c => digest isLeaf leafDigest combine c.2) := by
  rw [digest, fold_node, map_map]
  rfl

/-- The lists of digests that are combined on the way to the digest of a tree of depth `n`. -/
def combined : ℕ → Tree β α → List (List δ)
  | 0, _ => []
  | n + 1, .node _ cs =>
    (cs.map fun c => digest isLeaf leafDigest combine c.2) :: cs.flatMap fun c => combined n c.2

/-- The digests of the leaves, in the order of the tree. -/
def leafDigests : Tree β α → List δ := preorder fun a => if isLeaf a then [leafDigest a] else []

variable {isLeaf leafDigest combine} {n : ℕ} {cs : List (β × Tree β α)} {s t : Tree β α}
  {fresh x : α} {b : β}

lemma digest_spine (hfresh : isLeaf fresh = false) (hx : isLeaf x = true) (p : List β) :
    digest isLeaf leafDigest combine (spine fresh x p) =
      (fun d => combine [d])^[p.length] (leafDigest x) := by
  induction p with
  | nil => simp [spine, digest_node, hx]
  | cons b p ih =>
    rw [length_cons, Function.iterate_succ_apply', ← ih, spine, digest_node]
    simp [hfresh]

lemma mem_combined_spine (hfresh : isLeaf fresh = false) (hx : isLeaf x = true)
    (p : List β) {l : List δ} : l ∈ combined isLeaf leafDigest combine p.length (spine fresh x p) ↔
      ∃ k < p.length, l = [(fun d => combine [d])^[k] (leafDigest x)] := by
  induction p with
  | nil => simp [combined]
  | cons b p ih =>
    have hhead : digest isLeaf leafDigest combine (spine fresh x p) =
        (fun d => combine [d])^[p.length] (leafDigest x) := digest_spine hfresh hx p
    simp only [spine, length_cons, combined, map_cons, map_nil, hhead,
      flatMap_cons, flatMap_nil, append_nil, mem_cons, ih]
    constructor
    · rintro (rfl | ⟨k, hk, rfl⟩)
      · exact ⟨p.length, by omega, rfl⟩
      · exact ⟨k, by omega, rfl⟩
    · rintro ⟨k, hk, rfl⟩
      rcases Nat.lt_succ_iff_lt_or_eq.mp hk with hk | rfl
      · exact .inr ⟨k, hk, rfl⟩
      · exact .inl rfl

lemma forall_mem_combined {P : δ → Prop} (hcomb : ∀ l, P (combine l)) {t : Tree β α}
    (hleaf : ∀ a ∈ nodes t, isLeaf a = true → P (leafDigest a)) :
    ∀ l ∈ combined isLeaf leafDigest combine n t, ∀ d ∈ l, P d := by
  induction n generalizing t with
  | zero => simp [combined]
  | succ n ih =>
    obtain ⟨a, cs⟩ := t
    have hchild : ∀ c ∈ cs, ∀ x ∈ nodes c.2, isLeaf x = true → P (leafDigest x) :=
      fun c hc x hx => hleaf x (mem_nodes.mpr (.inr ⟨c, hc, hx⟩))
    intro l hl d hd
    rcases mem_cons.mp hl with rfl | hl
    · obtain ⟨⟨b, u⟩, hc, rfl⟩ := mem_map.mp hd
      obtain ⟨x, ds⟩ := u
      rw [digest_node]
      split_ifs with hx
      · exact hchild _ hc x (mem_nodes.mpr (.inl rfl)) hx
      · exact hcomb _
    · obtain ⟨c, hc, hl⟩ := mem_flatMap.mp hl
      exact ih (hchild c hc) l hl d hd

lemma map_eq_of_map_eq {ι κ : Type} {f : ι → δ} {g : ι → κ} {cs ds : List ι}
    (h : cs.map f = ds.map f) (hg : ∀ c ∈ cs, ∀ d ∈ ds, f c = f d → g c = g d) :
    cs.map g = ds.map g := by
  induction cs generalizing ds with
  | nil =>
    obtain rfl : ds = [] := by simpa using h.symm
    rfl
  | cons c cs ih =>
    cases ds with
    | nil => simp at h
    | cons d ds =>
      rw [map_cons, map_cons, List.cons.injEq] at h
      rw [map_cons, map_cons, hg c (by simp) d (by simp) h.1,
        ih h.2 fun x hx y hy => hg x (by simp [hx]) y (by simp [hy])]

/-- **Equal digests come from equal sequences of leaves**, if `combine` does not identify any two of
the lists it is applied to.

**Proof sketch.** Induction on the depth: the lists combined at the two roots are equal. -/
theorem leafDigests_eq_of_digest_eq (hs : Uniform isLeaf n s) (ht : Uniform isLeaf n t)
    (hinj : Set.InjOn combine {l | l ∈ combined isLeaf leafDigest combine n s ∨
      l ∈ combined isLeaf leafDigest combine n t})
    (h : digest isLeaf leafDigest combine s = digest isLeaf leafDigest combine t) :
    leafDigests isLeaf leafDigest s = leafDigests isLeaf leafDigest t := by
  induction n generalizing s t with
  | zero =>
    obtain ⟨a, cs⟩ := s
    obtain ⟨b, ds⟩ := t
    obtain ⟨ha, rfl⟩ := hs
    obtain ⟨hb, rfl⟩ := ht
    rw [digest_node, digest_node, if_pos ha, if_pos hb] at h
    simp [leafDigests, preorder_node, ha, hb, h]
  | succ n ih =>
    obtain ⟨a, cs⟩ := s
    obtain ⟨b, ds⟩ := t
    obtain ⟨ha, -, hcs⟩ := hs
    obtain ⟨hb, -, hds⟩ := ht
    rw [digest_node, digest_node, ha, hb] at h
    have hlists := hinj (.inl (mem_cons_self ..)) (.inr (mem_cons_self ..)) h
    have hinj' : ∀ c ∈ cs, ∀ d ∈ ds, Set.InjOn combine
        {l | l ∈ combined isLeaf leafDigest combine n c.2 ∨
          l ∈ combined isLeaf leafDigest combine n d.2} := by
      refine fun c hc d hd => hinj.mono fun l hl => hl.imp ?_ ?_ <;> intro hl
      · exact mem_cons_of_mem _ (mem_flatMap.mpr ⟨c, hc, hl⟩)
      · exact mem_cons_of_mem _ (mem_flatMap.mpr ⟨d, hd, hl⟩)
    simp only [leafDigests, preorder_node, ha, hb, Bool.false_eq_true, ↓reduceIte, nil_append,
      flatMap_def]
    refine congrArg List.flatten (map_eq_of_map_eq hlists fun c hc d hd hcd => ?_)
    exact ih (hcs c hc).2 (hds d hd).2 (hinj' c hc d hd) hcd

/-- The children of every node stand in increasing order of their labels. -/
def Sorted (rank : β → ℕ) : ℕ → Tree β α → Prop
  | 0, _ => True
  | n + 1, .node _ cs =>
    (cs.map Prod.fst).Pairwise (fun b c => rank b < rank c) ∧ ∀ c ∈ cs, Sorted rank n c.2

lemma mem_labels_iff (h : ∀ c ∈ cs, (n ≠ 0 → c.2.children ≠ []) ∧ Uniform isLeaf n c.2) :
    b ∈ cs.map Prod.fst ↔ ∃ p x, (b :: p, x) ∈ paths (n + 1) (.node a cs) := by
  constructor
  · intro hb
    obtain ⟨⟨b, t⟩, hc, rfl⟩ := mem_map.mp hb
    obtain ⟨p, x, hp⟩ := (h _ hc).2.exists_mem_paths (h _ hc).1
    exact ⟨p, x, cons_mem_paths.mpr ⟨t, hc, hp⟩⟩
  · rintro ⟨p, x, hp⟩
    obtain ⟨t, ht, -⟩ := cons_mem_paths.mp hp
    exact mem_map.mpr ⟨_, ht, rfl⟩

lemma sorted_of_subsingleton (rank : β → ℕ) {t : Tree β α} (h : Uniform isLeaf n t)
    (hone : ∀ p x q y, (p, x) ∈ paths n t → (q, y) ∈ paths n t → p = q) : Sorted rank n t := by
  induction n generalizing t with
  | zero => trivial
  | succ n ih =>
    obtain ⟨a, cs⟩ := t
    obtain ⟨-, hnd, hall⟩ := h
    refine ⟨hnd.imp_of_mem fun {b c} hb hc hbc => ?_, fun c hc => ih (hall c hc).2 ?_⟩
    · obtain ⟨p, x, hp⟩ := (mem_labels_iff hall (a := a)).mp hb
      obtain ⟨q, y, hq⟩ := (mem_labels_iff hall (a := a)).mp hc
      exact absurd (List.cons.inj (hone _ x _ y hp hq)).1 hbc
    · intro p x q y hp hq
      have := hone (c.1 :: p) x (c.1 :: q) y (mem_paths_succ.mpr ⟨c, hc, p, hp, rfl⟩)
        (mem_paths_succ.mpr ⟨c, hc, q, hq, rfl⟩)
      exact (List.cons.inj this).2

lemma eq_of_mem_of_nodup_fst (hnd : (cs.map Prod.fst).Nodup)
    {t u : Tree β α} (ht : (b, t) ∈ cs) (hu : (b, u) ∈ cs) : u = t :=
  congrArg Prod.snd (inj_on_of_nodup_map hnd hu ht rfl)

/-- **Sorted trees with the same paths have the same digest**, if the digest of a leaf is a function
`φ` of its path.

**Proof sketch.** Induction on the depth. The labels below the roots are the first labels of the
paths, and the subtrees under one label have the same paths again. -/
theorem digest_eq_of_paths {rank : β → ℕ} {φ : List β → δ}
    (hs : Uniform isLeaf n s) (ht : Uniform isLeaf n t) (hss : Sorted rank n s)
    (hst : Sorted rank n t) (hφs : ∀ p x, (p, x) ∈ paths n s → leafDigest x = φ p)
    (hφt : ∀ p x, (p, x) ∈ paths n t → leafDigest x = φ p)
    (h : ∀ p, (∃ x, (p, x) ∈ paths n s) ↔ ∃ x, (p, x) ∈ paths n t) :
    digest isLeaf leafDigest combine s = digest isLeaf leafDigest combine t := by
  induction n generalizing s t φ with
  | zero =>
    obtain ⟨a, cs⟩ := s
    obtain ⟨b, ds⟩ := t
    rw [digest_node, digest_node, if_pos hs.1, if_pos ht.1, hφs [] a (by simp [paths]),
      hφt [] b (by simp [paths])]
  | succ n ih =>
    obtain ⟨a, cs⟩ := s
    obtain ⟨b, ds⟩ := t
    obtain ⟨ha, hcnd, hcs⟩ := hs
    obtain ⟨hb, hdnd, hds⟩ := ht
    have hlabel : ∀ c : β, c ∈ cs.map Prod.fst ↔ c ∈ ds.map Prod.fst := fun c => by
      rw [mem_labels_iff hcs (a := a), mem_labels_iff hds (a := b)]
      exact exists_congr fun p => h (c :: p)
    have hlabels : cs.map Prod.fst = ds.map Prod.fst := by
      refine List.Perm.eq_of_pairwise ?_ hss.1 hst.1 ((perm_ext_iff_of_nodup hcnd hdnd).mpr hlabel)
      exact fun x y _ _ hxy hyx => absurd (hxy.trans hyx) (lt_irrefl _)
    rw [digest_node, digest_node, ha, hb]
    refine congrArg combine (map_eq_of_map_eq hlabels ?_)
    rintro ⟨c, u⟩ hc ⟨d, v⟩ hd rfl
    have hbelow : ∀ {a : α} {es : List (β × Tree β α)} {w : Tree β α},
        (es.map Prod.fst).Nodup → (c, w) ∈ es → ∀ p x,
          ((c :: p, x) ∈ paths (n + 1) (.node a es) ↔ (p, x) ∈ paths n w) := by
      intro a es w hnd hw p x
      rw [cons_mem_paths]
      refine ⟨fun ⟨w', hw', hp⟩ => ?_, fun hp => ⟨w, hw, hp⟩⟩
      rwa [← eq_of_mem_of_nodup_fst hnd hw hw']
    refine ih (φ := fun p => φ (c :: p)) (hcs _ hc).2 (hds _ hd).2 (hss.2 _ hc) (hst.2 _ hd)
      ?_ ?_ ?_
    · exact fun p x hp => hφs _ _ ((hbelow hcnd hc p x).mpr hp)
    · exact fun p x hp => hφt _ _ ((hbelow hdnd hd p x).mpr hp)
    · intro p
      have hp := h (c :: p)
      simpa only [hbelow hcnd hc, hbelow hdnd hd] using hp

end Digest

end EdgeTree
