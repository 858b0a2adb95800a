import Mathlib.Data.List.Nodup
import Mathlib.Data.List.Induction
import Mathlib.Tactic.Common

/-!
# Forests of index blocks

A store maps an address and an index to another address, zero meaning "nothing here". A family of root
addresses then spans a forest: a node is a root together with a path of indices. In a separated forest,
storing a fresh, empty address at an empty entry adds one node, and overwriting a leaf's block moves none.
-/

namespace Forest

variable {ρ A : Type*} [DecidableEq A] [Zero A]

/-- Follow a path of indices; the zero address leads nowhere. -/
def follow (next : A → Nat → A) (a : A) (path : List Nat) : A :=
  path.foldl (fun a i => if a = 0 then 0 else next a i) a

section Follow

variable (next : A → Nat → A) (a : A)

@[simp] theorem follow_nil : follow next a [] = a := rfl

theorem follow_cons (i : Nat) (path : List Nat) :
    follow next a (i :: path) = follow next (if a = 0 then 0 else next a i) path := rfl

theorem follow_concat (path : List Nat) (i : Nat) :
    follow next a (path ++ [i]) =
      if follow next a path = 0 then 0 else next (follow next a path) i :=
  List.foldl_append

@[simp] theorem follow_zero (path : List Nat) : follow next 0 path = 0 := by
  induction path with
  | nil => rfl
  | cons i path ih => rw [follow_cons, if_pos rfl, ih]

theorem follow_append (p q : List Nat) :
    follow next a (p ++ q) = follow next (follow next a p) q :=
  List.foldl_append

end Follow

/-- The bounds of a forest: how deep each root goes and how many entries a block has. -/
structure Shape (ρ : Type*) where
  depth : ρ → Nat
  width : Nat

/-- A node: a root and a path from it. -/
abbrev Node (ρ : Type*) := ρ × List Nat

/-- The paths below a root of depth `k`. -/
def IsPath (width k : Nat) (path : List Nat) : Prop := path.length ≤ k ∧ ∀ i ∈ path, i < width

def Shape.IsNode (sh : Shape ρ) (n : Node ρ) : Prop := IsPath sh.width (sh.depth n.1) n.2

theorem Shape.isNode_concat {sh : Shape ρ} {r : ρ} {path : List Nat} {i : Nat} :
    sh.IsNode (r, path ++ [i]) ↔ sh.IsNode (r, path) ∧ path.length < sh.depth r ∧ i < sh.width := by
  simp only [Shape.IsNode, IsPath, List.length_append, List.length_singleton, List.mem_append,
    List.mem_singleton]
  constructor
  · rintro ⟨short, small⟩
    exact ⟨⟨by omega, fun j h => small j (.inl h)⟩, by omega, small i (.inr rfl)⟩
  · rintro ⟨⟨_, small⟩, short, last⟩
    refine ⟨by omega, ?_⟩
    rintro j (h | rfl)
    · exact small j h
    · exact last

theorem Shape.IsNode.of_isPrefix {sh : Shape ρ} {r : ρ} {short long : List Nat}
    (node : sh.IsNode (r, long)) (above : short <+: long) : sh.IsNode (r, short) :=
  ⟨Nat.le_trans above.length_le node.1, fun j member => node.2 j (above.subset member)⟩

/-- Roots and the store that hangs below them. -/
structure Store (ρ A : Type*) where
  root : ρ → A
  next : A → Nat → A

/-- The address stored at a node. -/
def Store.addr (f : Store ρ A) (n : Node ρ) : A := follow f.next (f.root n.1) n.2

theorem Store.addr_concat (f : Store ρ A) (r : ρ) (path : List Nat) (i : Nat) :
    f.addr (r, path ++ [i]) =
      if f.addr (r, path) = 0 then 0 else f.next (f.addr (r, path)) i :=
  follow_concat _ _ _ _

/-- The addresses in use. -/
def Store.Owned (f : Store ρ A) (sh : Shape ρ) (a : A) : Prop :=
  ∃ n, sh.IsNode n ∧ f.addr n = a ∧ a ≠ 0

/-- No address stands at two nodes. -/
def Store.Separated (f : Store ρ A) (sh : Shape ρ) : Prop :=
  ∀ n m, sh.IsNode n → sh.IsNode m → f.addr n ≠ 0 → f.addr n = f.addr m → n = m

variable {sh : Shape ρ} {f g : Store ρ A}

/-- Addresses only depend on the entries of interior nodes. -/
theorem addr_congr (roots : ∀ r, g.root r = f.root r)
    (entries : ∀ n i, sh.IsNode n → n.2.length < sh.depth n.1 → i < sh.width → f.addr n ≠ 0 →
      g.next (f.addr n) i = f.next (f.addr n) i) :
    ∀ n, sh.IsNode n → g.addr n = f.addr n := by
  rintro ⟨r, path⟩
  induction path using List.reverseRecOn with
  | nil => exact fun _ => roots r
  | append_singleton path i ih =>
    intro node
    obtain ⟨inner, deep, small⟩ := Shape.isNode_concat.mp node
    rw [Store.addr_concat, Store.addr_concat, ih inner]
    split
    · rfl
    next live => exact entries _ _ inner deep small live

theorem owned_congr (addr : ∀ n, sh.IsNode n → g.addr n = f.addr n) (a : A) :
    g.Owned sh a ↔ f.Owned sh a := by
  refine exists_congr fun n => and_congr_right fun node => ?_
  rw [addr n node]

/-- Overwriting the block of a leaf moves no node of a separated forest. -/
theorem addr_of_leaf_write (separated : f.Separated sh) (roots : ∀ r, g.root r = f.root r)
    {leaf : Node ρ} (isNode : sh.IsNode leaf) (full : sh.depth leaf.1 ≤ leaf.2.length)
    (entries : ∀ a i, f.Owned sh a → i < sh.width → a ≠ f.addr leaf → g.next a i = f.next a i) :
    ∀ n, sh.IsNode n → g.addr n = f.addr n := by
  apply addr_congr roots
  intro n i node deep small live
  apply entries _ _ ⟨n, node, rfl, live⟩ small
  intro same
  have equal := separated n leaf node isNode live same
  subst equal
  omega

/-- `g` has exactly one address more than `f`: the address `b` at the node `n`, which had
none. -/
structure Grafted (sh : Shape ρ) (f g : Store ρ A) (n : Node ρ) (b : A) : Prop where
  isNode : sh.IsNode n
  empty : f.addr n = 0
  placed : g.addr n = b
  elsewhere : ∀ m, sh.IsNode m → m ≠ n → g.addr m = f.addr m

namespace Grafted

variable {n : Node ρ} {b : A}

theorem addr_of_live (grafted : Grafted sh f g n b) {m : Node ρ} (node : sh.IsNode m)
    (live : f.addr m ≠ 0) : g.addr m = f.addr m := by
  apply grafted.elsewhere m node
  rintro rfl
  exact live grafted.empty

theorem separated (grafted : Grafted sh f g n b) (separated : f.Separated sh)
    (fresh : ¬f.Owned sh b) : g.Separated sh := by
  intro m k hm hk live same
  by_cases isN : m = n
  · by_cases isN' : k = n
    · rw [isN, isN']
    · subst isN
      rw [grafted.placed] at live same
      rw [grafted.elsewhere k hk isN'] at same
      exact absurd ⟨k, hk, same.symm, live⟩ fresh
  · rw [grafted.elsewhere m hm isN] at live same
    by_cases isN' : k = n
    · subst isN'
      rw [grafted.placed] at same
      exact absurd ⟨m, hm, same, same ▸ live⟩ fresh
    · rw [grafted.elsewhere k hk isN'] at same
      exact separated m k hm hk live same

theorem owned_iff (grafted : Grafted sh f g n b) (nonzero : b ≠ 0) (a : A) :
    g.Owned sh a ↔ f.Owned sh a ∨ a = b := by
  constructor
  · rintro ⟨m, node, rfl, live⟩
    by_cases isN : m = n
    · subst isN
      exact .inr grafted.placed
    · rw [grafted.elsewhere m node isN] at live ⊢
      exact .inl ⟨m, node, rfl, live⟩
  · rintro (⟨m, node, rfl, live⟩ | rfl)
    · exact ⟨m, node, grafted.addr_of_live node live, live⟩
    · exact ⟨n, grafted.isNode, grafted.placed, nonzero⟩

end Grafted

theorem graft_root [DecidableEq ρ] {r : ρ} {b : A} (empty : f.root r = 0)
    (roots : ∀ q, g.root q = if q = r then b else f.root q)
    (entries : ∀ a i, f.Owned sh a → i < sh.width → g.next a i = f.next a i)
    (blank : ∀ i, i < sh.width → g.next b i = 0) : Grafted sh f g (r, []) b where
  isNode := ⟨Nat.zero_le _, by simp⟩
  empty := empty
  placed := by
    change g.root r = b
    rw [roots, if_pos rfl]
  elsewhere := by
    rintro ⟨q, path⟩ node other
    induction path using List.reverseRecOn with
    | nil =>
      have ne : q ≠ r := by rintro rfl; exact other rfl
      change g.root q = f.root q
      rw [roots, if_neg ne]
    | append_singleton path i ih =>
      obtain ⟨inner, deep, small⟩ := Shape.isNode_concat.mp node
      rw [Store.addr_concat, Store.addr_concat]
      by_cases below : (q, path) = (r, [])
      · -- the entry of the new block itself
        obtain ⟨rfl, rfl⟩ := Prod.mk.inj below
        have old : f.addr (q, []) = 0 := empty
        have new : g.addr (q, []) = b := by
          change g.root q = b
          rw [roots, if_pos rfl]
        rw [old, new, if_pos rfl, blank i small, ite_self]
      · rw [ih inner below]
        split
        · rfl
        next live => exact entries _ _ ⟨_, inner, rfl, live⟩ small

/-- Storing a fresh, empty block at an empty entry of an interior node. -/
theorem graft_entry (separated : f.Separated sh) {r : ρ} {path : List Nat} {i : Nat} {b : A}
    (parent : sh.IsNode (r, path)) (deep : path.length < sh.depth r) (small : i < sh.width)
    (live : f.addr (r, path) ≠ 0) (empty : f.next (f.addr (r, path)) i = 0)
    (roots : ∀ q, g.root q = f.root q)
    (entries : ∀ a j, f.Owned sh a → j < sh.width → (a ≠ f.addr (r, path) ∨ j ≠ i) →
      g.next a j = f.next a j)
    (stored : g.next (f.addr (r, path)) i = b) (blank : ∀ j, j < sh.width → g.next b j = 0) :
    Grafted sh f g (r, path ++ [i]) b := by
  classical
  have isNode : sh.IsNode (r, path ++ [i]) := Shape.isNode_concat.mpr ⟨parent, deep, small⟩
  have hole : f.addr (r, path ++ [i]) = 0 := by rw [Store.addr_concat, if_neg live, empty]
  -- by induction on the path: only the parent's node reads the changed entry
  have all : ∀ m, sh.IsNode m → g.addr m = if m = (r, path ++ [i]) then b else f.addr m := by
    rintro ⟨q, p⟩
    induction p using List.reverseRecOn with
    | nil =>
      intro _
      rw [if_neg (by simp)]
      exact roots q
    | append_singleton p j ih =>
      intro node
      obtain ⟨inner, _, smallJ⟩ := Shape.isNode_concat.mp node
      rw [Store.addr_concat, Store.addr_concat, ih inner]
      by_cases below : (q, p) = (r, path ++ [i])
      · obtain ⟨rfl, rfl⟩ := Prod.mk.inj below
        have ne : (q, path ++ [i] ++ [j]) ≠ (q, path ++ [i]) := by simp
        rw [if_pos rfl, hole, if_neg ne, if_pos rfl, blank j smallJ, ite_self]
      · rw [if_neg below]
        by_cases dead : f.addr (q, p) = 0
        · have ne : (q, p ++ [j]) ≠ (r, path ++ [i]) := by
            intro equal
            obtain ⟨rfl, same⟩ := Prod.mk.inj equal
            obtain ⟨rfl, _⟩ := List.append_inj' same rfl
            exact live dead
          rw [if_pos dead, if_neg ne, if_pos dead]
        · rw [if_neg dead, if_neg dead]
          by_cases atParent : (q, p) = (r, path)
          · obtain ⟨rfl, rfl⟩ := Prod.mk.inj atParent
            by_cases atEntry : j = i
            · subst atEntry
              rw [if_pos rfl, stored]
            · rw [if_neg (by simpa using atEntry)]
              exact entries _ _ ⟨_, inner, rfl, dead⟩ smallJ (.inr atEntry)
          · have ne : (q, p ++ [j]) ≠ (r, path ++ [i]) := by
              intro equal
              obtain ⟨rfl, same⟩ := Prod.mk.inj equal
              obtain ⟨rfl, _⟩ := List.append_inj' same rfl
              exact atParent rfl
            rw [if_neg ne]
            apply entries _ _ ⟨_, inner, rfl, dead⟩ smallJ
            left
            intro same
            exact atParent (separated _ _ inner parent dead same)
  refine ⟨isNode, hole, ?_, ?_⟩
  · rw [all _ isNode, if_pos rfl]
  · intro m node other
    rw [all m node, if_neg other]

/-- Clearing a root cuts off its tree and leaves the others. -/
theorem prune_addr [DecidableEq ρ] {r : ρ} (roots : ∀ q, g.root q = if q = r then 0 else f.root q)
    (entries : ∀ a i, f.Owned sh a → g.next a i = f.next a i) {n : Node ρ} (isNode : sh.IsNode n) :
    g.addr n = if n.1 = r then 0 else f.addr n := by
  obtain ⟨q, path⟩ := n
  by_cases cut : q = r
  · rw [if_pos cut, Store.addr, roots, if_pos cut, follow_zero]
  · rw [if_neg cut]
    induction path using List.reverseRecOn with
    | nil =>
      change g.root q = f.root q
      rw [roots, if_neg cut]
    | append_singleton path i ih =>
      obtain ⟨inner, _, _⟩ := Shape.isNode_concat.mp isNode
      rw [Store.addr_concat, Store.addr_concat, ih inner]
      split
      · rfl
      next live => exact entries _ _ ⟨_, inner, rfl, live⟩

/-! ### Listing a tree -/

/-- All paths of length at most `k`, children before their parent. -/
def paths (width : Nat) : Nat → List (List Nat)
  | 0 => [[]]
  | k + 1 => (List.range width).flatMap (fun i => (paths width k).map (i :: ·)) ++ [[]]

theorem mem_paths {width k : Nat} {path : List Nat} :
    path ∈ paths width k ↔ IsPath width k path := by
  induction k generalizing path with
  | zero =>
    rw [paths, List.mem_singleton, IsPath, Nat.le_zero, List.length_eq_zero_iff]
    constructor
    · rintro rfl
      exact ⟨rfl, by simp⟩
    · exact fun h => h.1
  | succ k ih =>
    simp only [paths, List.mem_append, List.mem_flatMap, List.mem_range, List.mem_map,
      List.mem_singleton, ih, IsPath]
    constructor
    · rintro (⟨i, small, p, ⟨short, bounds⟩, rfl⟩ | rfl)
      · refine ⟨by simp only [List.length_cons]; omega, ?_⟩
        intro j member
        rcases List.mem_cons.mp member with rfl | member
        · exact small
        · exact bounds j member
      · exact ⟨Nat.zero_le _, by simp⟩
    · rintro ⟨short, bounds⟩
      cases path with
      | nil => exact .inr rfl
      | cons i p =>
        left
        simp only [List.length_cons] at short
        exact ⟨i, bounds i (by simp), p, ⟨by omega, fun j h => bounds j (by simp [h])⟩, rfl⟩

theorem nodup_paths (width k : Nat) : (paths width k).Nodup := by
  induction k with
  | zero => simp [paths]
  | succ k ih =>
    rw [paths, List.nodup_append]
    refine ⟨?_, by simp, ?_⟩
    · rw [List.nodup_flatMap]
      constructor
      · intro i _
        exact ih.map (List.cons_injective)
      · apply List.Nodup.pairwise_of_forall_ne List.nodup_range
        intro i _ j _ ne p hi hj
        obtain ⟨p1, _, rfl⟩ := List.mem_map.mp hi
        obtain ⟨p2, _, same⟩ := List.mem_map.mp hj
        exact ne (List.cons.inj same).1.symm
    · intro p hp q hq
      rw [List.mem_singleton] at hq
      subst hq
      simp only [List.mem_flatMap, List.mem_map] at hp
      obtain ⟨i, _, p', _, rfl⟩ := hp
      simp

/-- The addresses in use at and below `a`, children before their parent. -/
def subtree (next : A → Nat → A) (width k : Nat) (a : A) : List A :=
  ((paths width k).map (follow next a)).filter (· ≠ 0)

theorem mem_subtree {next : A → Nat → A} {width k : Nat} {a b : A} :
    b ∈ subtree next width k a ↔ (∃ path, IsPath width k path ∧ follow next a path = b) ∧ b ≠ 0 := by
  simp [subtree, mem_paths]

theorem subtree_of_zero (next : A → Nat → A) (width k : Nat) : subtree next width k 0 = [] := by
  simp [subtree]

theorem subtree_depth_zero (next : A → Nat → A) (width : Nat) {a : A} (live : a ≠ 0) :
    subtree next width 0 a = [a] := by
  simp [subtree, paths, live]

theorem subtree_succ (next : A → Nat → A) (width k : Nat) {a : A} (live : a ≠ 0) :
    subtree next width (k + 1) a =
      (List.range width).flatMap (fun i => subtree next width k (next a i)) ++ [a] := by
  simp only [subtree, paths, List.map_append, List.filter_append, List.map_flatMap,
    List.filter_flatMap, List.map_map]
  congr 1
  · apply List.flatMap_congr
    intro i _
    congr 2
    funext p
    simp [follow_cons, live]
  · simp [live]

/-- In a separated forest the listing of a root's tree has no repetition. -/
theorem nodup_subtree (separated : f.Separated sh) (r : ρ) :
    (subtree f.next sh.width (sh.depth r) (f.root r)).Nodup := by
  rw [subtree, List.nodup_iff_pairwise_ne, List.pairwise_filter, List.pairwise_map]
  apply List.Pairwise.imp_of_mem _ (List.nodup_iff_pairwise_ne.mp (nodup_paths _ _))
  intro p q hp hq ne live _ same
  have equal := separated (r, p) (r, q) (mem_paths.mp hp) (mem_paths.mp hq)
    (by simpa [Store.addr] using live) same
  exact ne (Prod.mk.inj equal).2

/-- After clearing root `r` the addresses in use are those outside its tree. -/
theorem prune_owned [DecidableEq ρ] (separated : f.Separated sh) {r : ρ}
    (addr : ∀ n, sh.IsNode n → g.addr n = if n.1 = r then 0 else f.addr n) (a : A) :
    g.Owned sh a ↔ f.Owned sh a ∧ a ∉ subtree f.next sh.width (sh.depth r) (f.root r) := by
  constructor
  · rintro ⟨⟨q, path⟩, node, here, live⟩
    rw [addr _ node] at here
    split at here
    · exact absurd here.symm live
    next kept =>
      refine ⟨⟨_, node, here, live⟩, ?_⟩
      intro member
      obtain ⟨⟨path', isPath, there⟩, _⟩ := mem_subtree.mp member
      have equal := separated (q, path) (r, path') node isPath (by rw [here]; exact live)
        (here.trans there.symm)
      exact kept (Prod.mk.inj equal).1
  · rintro ⟨⟨⟨q, path⟩, node, here, live⟩, outside⟩
    refine ⟨(q, path), node, ?_, live⟩
    rw [addr _ node, if_neg, here]
    rintro rfl
    exact outside (mem_subtree.mpr ⟨⟨path, node, here⟩, live⟩)

theorem prune_separated [DecidableEq ρ] (separated : f.Separated sh) {r : ρ}
    (addr : ∀ n, sh.IsNode n → g.addr n = if n.1 = r then 0 else f.addr n) : g.Separated sh := by
  intro n m hn hm live same
  rw [addr n hn] at live same
  rw [addr m hm] at same
  split at live
  · exact absurd rfl live
  next kept =>
    rw [if_neg kept] at same
    split at same
    · exact absurd same live
    · exact separated n m hn hm live same

end Forest
