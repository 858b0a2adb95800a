import Xv6.Proc.Effect

/-!
# Thread groups

`Grouped` says that the `master` pointers of the threads and the thread list of the main thread agree. A
group survives every call that does not take away the creator of a thread that stays, and does not leave
behind a slot that is neither child nor thread.
-/

namespace Xv6.Proc

open Function (update)

variable {v v' : View} {cur np t u h w : Slot} {l xs ys ws : List Slot}

/-- The group of main thread `h`: the list from `h` holds exactly the threads in use whose
creators lead to `h`, all with the pid and page directory of `h`. -/
structure Grouped (v : View) (h : Slot) (l : List Slot) : Prop where
  root : v.master h = none
  linked : v.threads.Linked (h :: l)
  members : ∀ u, u ∈ h :: l ↔ v.ident u ≠ none ∧ ∃ n, Chain.Ends v.master n u h
  ident : ∀ u ∈ l, v.ident u = v.ident h

def Integrity (v : View) : Prop := ∀ t, v.ident t ≠ none → ∃ h l, Grouped v h l ∧ t ∈ h :: l

/-- An unused slot points nowhere, and a worker thread has no parent. -/
structure Clean (v : View) : Prop where
  unused : ∀ p, v.ident p = none → v.master p = none ∧ v.parent p = none
  child : ∀ p, v.parent p ≠ none → v.master p = none

/-- The creator of a thread that stays in use is reclaimed or leaves the group. -/
def Orphans (v v' : View) : Prop :=
  ∃ t, v'.ident t ≠ none ∧ ∃ m ∈ v.master t,
    v'.ident m = none ∨ v'.master m = none ∧ v.master m ≠ none

/-- A slot comes into use that is nobody's child and nobody's thread. -/
def Strands (v v' : View) : Prop :=
  ∃ np, v.ident np = none ∧ v'.ident np ≠ none ∧ v'.parent np = none ∧ v'.master np = none

/-! ### Consequences of integrity -/

theorem Grouped.used (grouped : Grouped v h l) (member : u ∈ h :: l) : v.ident u ≠ none :=
  ((grouped.members u).mp member).1

theorem Grouped.unique {h' : Slot} {l' : List Slot} (first : Grouped v h l)
    (second : Grouped v h' l') (member : u ∈ h :: l) (member' : u ∈ h' :: l') :
    h = h' ∧ l = l' := by
  obtain ⟨_, n, ends⟩ := (first.members u).mp member
  obtain ⟨_, n', ends'⟩ := (second.members u).mp member'
  obtain ⟨_, rfl⟩ := ends.unique ends'
  exact ⟨rfl, first.linked.unique second.linked⟩

section Consequences

variable (intact : Integrity v) (clean : Clean v)
include intact clean

theorem used_master (used : v.ident t ≠ none) {m : Slot} (master : v.master t = some m) :
    v.ident m ≠ none := by
  obtain ⟨h, l, grouped, member⟩ := intact t used
  obtain ⟨_, n, ends⟩ := (grouped.members t).mp member
  intro unused
  cases ends with
  | here null => rw [master] at null; cases null
  | step next rest =>
    rw [master] at next
    cases next
    -- an unused creator ends the chain, but the chain ends at `h`
    obtain ⟨_, rfl⟩ := rest.unique (.here (clean.unused m unused).1)
    exact grouped.used List.mem_cons_self unused

theorem used_on (used : v.ident t ≠ none) (on : Chain.On v.master t u) : v.ident u ≠ none := by
  induction on with
  | here => exact used
  | step next _ ih => exact ih (used_master intact clean used next)

/-- Where `master` changes only at slots that are not met, chains stay. -/
theorem ends_of_same {n : Nat} {f : Slot → Option Slot} (used : v.ident t ≠ none)
    (ends : Chain.Ends v.master n t h) (same : ∀ u, v.ident u ≠ none → f u = v.master u) :
    Chain.Ends f n t h :=
  ends.congr fun u on => same u (used_on intact clean used on)

end Consequences

theorem Integrity.intact (intact : Integrity v) (used : v.ident cur ≠ none) : Intact v cur := by
  obtain ⟨h, l, grouped, member⟩ := intact cur used
  obtain ⟨xs, ys, split⟩ := List.append_of_mem member
  refine ⟨xs, ys, split ▸ grouped.linked, fun w behind => ?_⟩
  have inside : w ∈ h :: l := by
    rw [split]
    simp [behind]
  refine ⟨grouped.used inside, fun root => ?_⟩
  -- a thread without creator is the head, and the head is not behind `cur`
  obtain ⟨_, n, ends⟩ := (grouped.members w).mp inside
  obtain ⟨_, rfl⟩ := ends.unique (.here root)
  have nodup := grouped.linked.nodup
  cases xs with
  | nil =>
    rw [List.nil_append] at split
    cases split
    exact (List.nodup_cons.mp nodup).1 behind
  | cons x xs =>
    cases split
    exact (List.nodup_cons.mp nodup).1 (by simp [behind])

/-! ### Clean slots -/

theorem Clean.reclaim (clean : Clean v) (ws : List Slot) : Clean (ws.foldl View.reclaim v) := by
  refine ⟨fun p unused => ?_, fun p parent => ?_⟩
  · obtain ⟨ident, parent, master⟩ := View.reclaim_fields v ws p
    rw [parent, master]
    split
    · exact ⟨rfl, rfl⟩
    next out =>
      rw [ident, if_neg out] at unused
      exact clean.unused p unused
  · obtain ⟨_, parent', master⟩ := View.reclaim_fields v ws p
    rw [master]
    rw [parent'] at parent
    split
    · rfl
    next out =>
      rw [if_neg out] at parent
      exact clean.child p parent

theorem Clean.fork (clean : Clean v) (unused : v.ident np = none) (id : Int × Nat) :
    Clean (v.fork cur np id) := by
  refine ⟨fun p free => ?_, fun p parent => ?_⟩
  · have ne : p ≠ np := by
      rintro rfl
      simp [View.fork, View.embryo] at free
    simp only [View.fork, View.embryo, Function.update_of_ne ne] at free ⊢
    exact clean.unused p free
  · by_cases here : p = np
    · subst here
      exact (clean.unused p unused).1
    · simp only [View.fork, Function.update_of_ne here] at parent
      exact clean.child p parent

theorem Clean.create (clean : Clean v) (used : v.ident cur ≠ none) (unused : v.ident np = none) :
    Clean (v.create cur np) := by
  refine ⟨fun p free => ?_, fun p parent => ?_⟩
  · have ne : p ≠ np := by
      rintro rfl
      simp [View.create, used] at free
    simp only [View.create, Function.update_of_ne ne] at free ⊢
    exact clean.unused p free
  · have ne : p ≠ np := by
      rintro rfl
      exact parent (clean.unused p unused).2
    simp only [View.create, Function.update_of_ne ne]
    exact clean.child p parent

theorem Clean.dispose {c : Slot} (clean : Clean v) (root : v.master c = none) :
    Clean (v.dispose c) := by
  refine ⟨fun p free => ?_, fun p parent => ?_⟩
  · by_cases here : p = c
    · subst here
      exact ⟨root, Function.update_self ..⟩
    · simp only [View.dispose, Function.update_of_ne here] at free ⊢
      exact clean.unused p free
  · by_cases here : p = c
    · subst here
      exact root
    · simp only [View.dispose, Function.update_of_ne here] at parent
      exact clean.child p parent

theorem Clean.reparent (clean : Clean v) : Clean (v.reparent cur) := by
  refine ⟨fun p free => ?_, fun p parent => clean.child p fun none => parent ?_⟩
  · obtain ⟨master, parent⟩ := clean.unused p free
    exact ⟨master, by simp [View.reparent, parent]⟩
  · simp [View.reparent, none]

theorem Clean.load (clean : Clean v) (id : Int × Nat) : Clean (v.load cur id) := by
  refine ⟨fun p free => clean.unused p ?_, clean.child⟩
  have ne : p ≠ cur := by
    rintro rfl
    simp [View.load] at free
  simpa [View.load, ne] using free

theorem Clean.promote {p : Slot} (clean : Clean v) (used : v.ident cur ≠ none)
    (usedP : v.ident p ≠ none) (root : v.master p = none) : Clean (v.promote cur p) := by
  refine ⟨fun q free => ?_, fun q parent => ?_⟩
  · replace free : v.ident q = none := free
    have ne : q ≠ cur := by
      rintro rfl
      exact used free
    have neP : q ≠ p := by
      rintro rfl
      exact usedP free
    simp only [View.promote, Function.update_of_ne ne, Function.update_of_ne neP]
    exact clean.unused q free
  · by_cases here : q = cur
    · subst here
      exact Function.update_self ..
    · simp only [View.promote, Function.update_of_ne here] at parent ⊢
      by_cases last : q = p
      · rw [last]
        exact root
      · rw [Function.update_of_ne last, Function.update_of_ne here] at parent
        exact clean.child q parent

/-! ### Groups under the changes -/

/-- A group none of whose links and identities change, and that nobody joins. -/
theorem Grouped.transfer (grouped : Grouped v h l)
    (ident : ∀ u ∈ h :: l, v'.ident u = v.ident u)
    (links : ∀ u ∈ h :: l, v'.threads.next u = v.threads.next u ∧ v'.threads.prev u = v.threads.prev u)
    (root : v'.master h = none) (chains : ∀ u ∈ h :: l, ∃ n, Chain.Ends v'.master n u h)
    (closed : ∀ u, v'.ident u ≠ none → (∃ n, Chain.Ends v'.master n u h) → u ∈ h :: l) :
    Grouped v' h l where
  root := root
  linked := grouped.linked.congr links
  members u := ⟨fun member => ⟨by rw [ident u member]; exact grouped.used member, chains u member⟩,
    fun ⟨used, ends⟩ => closed u used ends⟩
  ident u member := by
    rw [ident u (List.mem_cons_of_mem _ member), ident h List.mem_cons_self]
    exact grouped.ident u member

/-- What `Integrity` does not look at. -/
theorem Integrity.congr (intact : Integrity v) (ident : v'.ident = v.ident)
    (master : v'.master = v.master) (threads : v'.threads = v.threads) : Integrity v' := by
  intro t used
  rw [ident] at used
  obtain ⟨h, l, grouped, member⟩ := intact t used
  refine ⟨h, l, ⟨?_, ?_, ?_, ?_⟩, member⟩
  · rw [master]
    exact grouped.root
  · rw [threads]
    exact grouped.linked
  · rw [ident, master]
    exact grouped.members
  · rw [ident]
    exact grouped.ident

theorem Integrity.add {id : Int × Nat} (intact : Integrity v) (clean : Clean v)
    (unused : v.ident np = none) (ident : v'.ident = update v.ident np (some id))
    (master : v'.master = v.master)
    (others : ∀ u, u ≠ np →
      v'.threads.next u = v.threads.next u ∧ v'.threads.prev u = v.threads.prev u)
    (alone : v'.threads.next np = none ∧ v'.threads.prev np = none) : Integrity v' := by
  have root := (clean.unused np unused).1
  have old : ∀ u, u ≠ np → v'.ident u = v.ident u := fun u other => by
    rw [ident, Function.update_of_ne other]
  intro t used
  by_cases new : t = np
  · subst new
    refine ⟨t, [], ⟨by rwa [master], ⟨alone.2, alone.1, trivial⟩, fun u => ?_, by simp⟩, by simp⟩
    rw [List.mem_singleton, master]
    constructor
    · rintro rfl
      exact ⟨by simp [ident], 0, .here root⟩
    · rintro ⟨usedU, n, ends⟩
      by_contra other
      rw [old u other] at usedU
      exact used_on intact clean usedU ends.on_last unused
  · rw [old t new] at used
    obtain ⟨h, l, grouped, member⟩ := intact t used
    have out : ∀ u ∈ h :: l, u ≠ np := by
      rintro u member rfl
      exact grouped.used member unused
    refine ⟨h, l, grouped.transfer (fun u m => old u (out u m)) (fun u m => others u (out u m))
      (by rw [master]; exact grouped.root) (fun u m => ?_) (fun u usedU => ?_), member⟩
    · rw [master]
      exact ((grouped.members u).mp m).2
    · rw [master]
      rintro ⟨n, ends⟩
      by_cases new : u = np
      · subst new
        obtain ⟨_, rfl⟩ := ends.unique (.here root)
        exact absurd unused (grouped.used List.mem_cons_self)
      · rw [old u new] at usedU
        exact (grouped.members u).mpr ⟨usedU, n, ends⟩

theorem Integrity.create (intact : Integrity v) (clean : Clean v) (used : v.ident cur ≠ none)
    (unused : v.ident np = none) : Integrity (v.create cur np) := by
  have ne : cur ≠ np := by
    rintro rfl
    exact used unused
  have old : ∀ u, u ≠ np → (v.create cur np).ident u = v.ident u := fun u other =>
    Function.update_of_ne other _ _
  have master : ∀ u, v.ident u ≠ none → (v.create cur np).master u = v.master u := by
    intro u used
    refine Function.update_of_ne ?_ _ _
    rintro rfl
    exact used unused
  have kept : ∀ {u n h}, v.ident u ≠ none → Chain.Ends v.master n u h →
      Chain.Ends (v.create cur np).master n u h :=
    fun used ends => ends_of_same intact clean used ends master
  -- the creator's group, with the new thread in it
  obtain ⟨g, l, group, place⟩ := intact cur used
  obtain ⟨xs, ys, split⟩ := List.append_of_mem place
  have linked : v.threads.Linked (xs ++ cur :: ys) := split ▸ group.linked
  have fresh : np ∉ xs ++ cur :: ys := by
    rw [← split]
    exact fun member => group.used member unused
  obtain ⟨_, n, chain⟩ := (group.members cur).mp place
  have chainNew : Chain.Ends (v.create cur np).master (n + 1) np g :=
    .step (Function.update_self ..) (kept used chain)
  obtain ⟨l', whole⟩ : ∃ l', g :: l' = xs ++ cur :: np :: ys := by
    cases xs with
    | nil =>
      cases split
      exact ⟨np :: l, rfl⟩
    | cons x xs =>
      cases split
      exact ⟨_, rfl⟩
  have mem : ∀ u, u ∈ g :: l' ↔ u = np ∨ u ∈ g :: l := by
    intro u
    rw [whole, split]
    simp only [List.mem_append, List.mem_cons]
    tauto
  have grouped : Grouped (v.create cur np) g l' := by
    have ident : ∀ u ∈ g :: l', (v.create cur np).ident u = v.ident g := by
      intro u member
      rcases (mem u).mp member with rfl | member
      · have same : v.ident cur = v.ident g := by
          rcases List.mem_cons.mp place with rfl | behind
          · rfl
          · exact group.ident cur behind
        exact (Function.update_self ..).trans same
      · rw [old u fun same => fresh (same ▸ split ▸ member)]
        rcases List.mem_cons.mp member with rfl | behind
        · rfl
        · exact group.ident u behind
    refine ⟨?_, ?_, fun u => ?_, fun u member => ?_⟩
    · rw [master g (group.used List.mem_cons_self)]
      exact group.root
    · rw [whole]
      exact linked.insertAfter fresh
    · constructor
      · intro member
        refine ⟨by rw [ident u member]; exact group.used List.mem_cons_self, ?_⟩
        rcases (mem u).mp member with rfl | member
        · exact ⟨_, chainNew⟩
        · obtain ⟨usedU, m, ends⟩ := (group.members u).mp member
          exact ⟨m, kept usedU ends⟩
      · rintro ⟨usedU, m, ends⟩
        rw [mem]
        by_cases new : u = np
        · exact .inl new
        · rw [old u new] at usedU
          obtain ⟨h, k, other, place⟩ := intact u usedU
          obtain ⟨_, m', ends'⟩ := (other.members u).mp place
          obtain ⟨_, rfl⟩ := (kept usedU ends').unique ends
          exact .inr ((group.members u).mpr ⟨usedU, m', ends'⟩)
    · rw [ident u (List.mem_cons_of_mem _ member), ident g List.mem_cons_self]
  intro t usedT
  by_cases new : t = np
  · exact ⟨g, l', grouped, (mem t).mpr (.inl new)⟩
  rw [old t new] at usedT
  obtain ⟨h, k, other, member⟩ := intact t usedT
  by_cases same : h = g
  · subst same
    obtain ⟨_, rfl⟩ := group.unique other List.mem_cons_self List.mem_cons_self
    exact ⟨h, l', grouped, (mem t).mpr (.inr member)⟩
  · have apart : ∀ u ∈ h :: k, u ∉ xs ++ cur :: ys ∧ u ≠ np := by
      intro u member
      refine ⟨fun inside => same (other.unique group member (split ▸ inside)).1, ?_⟩
      rintro rfl
      exact other.used member unused
    refine ⟨h, k, other.transfer (fun u m => old u (apart u m).2)
      (fun u m => linked.insertAfter_of_notMem (apart u m).1 (apart u m).2) ?_ (fun u m => ?_)
      (fun u usedU ends => ?_), member⟩
    · rw [master h (other.used List.mem_cons_self)]
      exact other.root
    · obtain ⟨usedU, m, ends⟩ := (other.members u).mp m
      exact ⟨m, kept usedU ends⟩
    · obtain ⟨m, ends⟩ := ends
      by_cases new : u = np
      · subst new
        exact absurd (ends.unique chainNew).2 same
      · rw [old u new] at usedU
        obtain ⟨h', k', third, place⟩ := intact u usedU
        obtain ⟨_, m', ends'⟩ := (third.members u).mp place
        obtain ⟨_, rfl⟩ := (kept usedU ends').unique ends
        exact (other.members u).mpr ⟨usedU, m', ends'⟩

theorem View.reclaim_threads (v : View) (ws : List Slot) :
    (ws.foldl View.reclaim v).threads = ws.foldl Links.unlink v.threads := by
  induction ws generalizing v with
  | nil => rfl
  | cons w ws ih => exact ih (v.reclaim w)

/-- Worker threads are taken out of one group, none of them the creator of one that stays. -/
theorem Integrity.reclaim (intact : Integrity v) (clean : Clean v) (group : Grouped v h l)
    (sublist : ws.Sublist l) (stays : ∀ t, v.ident t ≠ none → t ∉ ws → ∀ w ∈ ws, v.master t ≠ some w) :
    Integrity (ws.foldl View.reclaim v) ∧
      ∃ l', Grouped (ws.foldl View.reclaim v) h l' ∧ ∀ u, u ∈ l' ↔ u ∈ l ∧ u ∉ ws := by
  have nodup := List.nodup_cons.mp group.linked.nodup
  obtain ⟨l', linked, mem, others⟩ := group.linked.unlink_all (sublist.nodup nodup.2)
    (fun w member => sublist.subset member)
  rw [← View.reclaim_threads] at linked others
  have ident : ∀ u, u ∉ ws → (ws.foldl View.reclaim v).ident u = v.ident u := fun u out =>
    (View.reclaim_fields v ws u).1.trans (if_neg out)
  have gone : ∀ u, (ws.foldl View.reclaim v).ident u ≠ none → u ∉ ws := fun u used member =>
    used ((View.reclaim_fields v ws u).1.trans (if_pos member))
  have master : ∀ u, u ∉ ws → (ws.foldl View.reclaim v).master u = v.master u := fun u out =>
    (View.reclaim_fields v ws u).2.2.trans (if_neg out)
  have headStays : h ∉ ws := fun member => nodup.1 (sublist.subset member)
  -- the chain of a thread that stays goes through threads that stay
  have kept : ∀ {u n h}, v.ident u ≠ none → u ∉ ws → Chain.Ends v.master n u h →
      Chain.Ends (ws.foldl View.reclaim v).master n u h := by
    intro u n h used out ends
    induction ends with
    | here null => exact .here ((master _ out).trans null)
    | step next _ ih =>
      refine .step ((master _ out).trans next) (ih (used_master intact clean used next) ?_)
      exact fun member => stays _ used out _ member next
  have back : ∀ {u m g}, (ws.foldl View.reclaim v).ident u ≠ none →
      Chain.Ends (ws.foldl View.reclaim v).master m u g → v.ident u ≠ none ∧
        ∃ n, Chain.Ends v.master n u g := by
    intro u m g used ends
    have out := gone u used
    rw [ident u out] at used
    obtain ⟨h', k, other, place⟩ := intact u used
    obtain ⟨_, n, ends'⟩ := (other.members u).mp place
    obtain ⟨_, rfl⟩ := (kept used out ends').unique ends
    exact ⟨used, n, ends'⟩
  have mem' : ∀ u, u ∈ h :: l' ↔ u ∈ h :: l ∧ u ∉ ws := by
    intro u
    rw [List.mem_cons, List.mem_cons, mem]
    constructor
    · rintro (rfl | ⟨inside, out⟩)
      · exact ⟨.inl rfl, headStays⟩
      · exact ⟨.inr inside, out⟩
    · rintro ⟨rfl | inside, out⟩
      · exact .inl rfl
      · exact .inr ⟨inside, out⟩
  have grouped : Grouped (ws.foldl View.reclaim v) h l' := by
    refine ⟨(master h headStays).trans group.root, linked, fun u => ?_, fun u member => ?_⟩
    · rw [mem']
      constructor
      · rintro ⟨inside, out⟩
        obtain ⟨used, n, ends⟩ := (group.members u).mp inside
        exact ⟨by rwa [ident u out], n, kept used out ends⟩
      · rintro ⟨used, n, ends⟩
        exact ⟨(group.members u).mpr (back used ends), gone u used⟩
    · obtain ⟨inside, out⟩ := (mem u).mp member
      rw [ident u out, ident h headStays]
      exact group.ident u inside
  refine ⟨fun t used => ?_, l', grouped, mem⟩
  have out := gone t used
  rw [ident t out] at used
  obtain ⟨g, k, other, member⟩ := intact t used
  by_cases same : g = h
  · subst same
    obtain ⟨_, rfl⟩ := group.unique other List.mem_cons_self List.mem_cons_self
    exact ⟨g, l', grouped, (mem' t).mpr ⟨member, out⟩⟩
  · have apart : ∀ u ∈ g :: k, u ∉ h :: l := fun u m inside => same (other.unique group m inside).1
    have outside : ∀ u ∈ g :: k, u ∉ ws := fun u m inside =>
      apart u m (List.mem_cons_of_mem _ (sublist.subset inside))
    refine ⟨g, k, other.transfer (fun u m => ident u (outside u m)) (fun u m => others u (apart u m))
      ((master g (outside g List.mem_cons_self)).trans other.root) (fun u m => ?_)
      (fun u usedU ends => ?_), member⟩
    · obtain ⟨usedU, n, ends⟩ := (other.members u).mp m
      exact ⟨n, kept usedU (outside u m) ends⟩
    · obtain ⟨n, ends⟩ := ends
      exact (other.members u).mpr (back usedU ends)

theorem View.dispose_ident {c : Slot} (ne : t ≠ c) : (v.dispose c).ident t = v.ident t :=
  Function.update_of_ne ne _ _

theorem Integrity.dispose {c : Slot} (intact : Integrity v) (clean : Clean v)
    (root : v.master c = none) (stays : ∀ t, v.ident t ≠ none → v.master t ≠ some c) :
    Integrity (v.dispose c) := by
  intro t used
  have ne : t ≠ c := by
    rintro rfl
    exact used (Function.update_self ..)
  rw [View.dispose_ident ne] at used
  obtain ⟨h, l, grouped, member⟩ := intact t used
  -- `c` is not in this group: it is not the head, and only the head has no creator
  have out : ∀ u ∈ h :: l, u ≠ c := by
    rintro u inside rfl
    obtain ⟨_, n, ends⟩ := (grouped.members u).mp inside
    obtain ⟨_, rfl⟩ := ends.unique (.here root)
    obtain ⟨_, m, ends⟩ := (grouped.members t).mp member
    obtain ⟨w, on, last⟩ := ends.before_last ne
    exact stays w (used_on intact clean used on) last
  refine ⟨h, l, grouped.transfer (fun u m => View.dispose_ident (out u m)) (fun _ _ => ⟨rfl, rfl⟩)
    grouped.root (fun u m => ((grouped.members u).mp m).2) (fun u usedU ends => ?_), member⟩
  have other : u ≠ c := by
    rintro rfl
    exact usedU (Function.update_self ..)
  rw [View.dispose_ident other] at usedU
  exact (grouped.members u).mpr ⟨usedU, ends⟩

theorem Integrity.promote {p : Slot} (intact : Integrity v) (clean : Clean v)
    (used : v.ident cur ≠ none) (worker : v.master cur ≠ none)
    (stays : ∀ t, v.ident t ≠ none → v.master t ≠ some cur) (id : Int × Nat) :
    Integrity ((v.load cur id).promote cur p) := by
  obtain ⟨h, l, group, member⟩ := intact cur used
  have behind : cur ∈ l := by
    rcases List.mem_cons.mp member with rfl | behind
    · exact absurd group.root worker
    · exact behind
  have alone := (intact.reclaim clean group (List.singleton_sublist.mpr behind)
    (fun t used _ w here => List.mem_singleton.mp here ▸ stays t used)).1
  have ne : ∀ u, u ≠ cur → some cur ≠ some u := fun u other same => other (Option.some.inj same).symm
  have gone : ([cur].foldl View.reclaim v).ident cur = none := Function.update_self ..
  have back : ((v.load cur id).promote cur p).ident =
      update ([cur].foldl View.reclaim v).ident cur (some id) := (Function.update_idem ..).symm
  refine alone.add (clean.reclaim [cur]) gone back rfl (fun u other => ?_) ?_
  · simp only [View.promote, View.load, List.foldl, View.reclaim, Links.remove, Links.next_setPrev,
      Links.next_setNext, Links.prev_setPrev, Links.prev_setNext, if_neg (ne u other), and_self]
  · simp [View.promote, View.load, Links.remove]

theorem Integrity.load (intact : Integrity v) (group : Grouped v cur []) (id : Int × Nat) :
    Integrity (v.load cur id) := by
  have ident : ∀ u, u ≠ cur → (v.load cur id).ident u = v.ident u := fun u other =>
    Function.update_of_ne other _ _
  have used : ∀ u, (v.load cur id).ident u ≠ none ↔ v.ident u ≠ none := by
    intro u
    by_cases here : u = cur
    · subst here
      simp [View.load, group.used]
    · rw [ident u here]
  intro t usedT
  rw [used] at usedT
  by_cases here : t = cur
  · refine ⟨cur, [], ⟨group.root, group.linked, fun u => ?_, by simp⟩, by simp [here]⟩
    rw [used]
    exact group.members u
  · obtain ⟨h, l, other, member⟩ := intact t usedT
    have apart : ∀ u ∈ h :: l, u ≠ cur := by
      rintro u inside rfl
      obtain ⟨rfl, rfl⟩ := other.unique group inside List.mem_cons_self
      exact here (List.mem_singleton.mp member)
    refine ⟨h, l, other.transfer (fun u m => ident u (apart u m)) (fun _ _ => ⟨rfl, rfl⟩) other.root
      (fun u m => ((other.members u).mp m).2) (fun u usedU ends => ?_), member⟩
    exact (other.members u).mpr ⟨(used u).mp usedU, ends⟩

/-! ### Steps and runs -/

private theorem behind_sublist (split : h :: l = xs ++ cur :: ys) : ys.Sublist l := by
  cases xs with
  | nil =>
    cases split
    exact List.Sublist.refl _
  | cons x xs =>
    cases split
    exact (List.sublist_cons_self _ _).trans (List.sublist_append_right _ _)

/-- Reclaimed threads that stand behind `cur`. -/
theorem Integrity.reap (intact : Integrity v) (clean : Clean v) (used : v.ident cur ≠ none)
    (behind : ∀ xs ys, v.threads.Linked (xs ++ cur :: ys) → ws.Sublist ys)
    (stays : ¬Orphans v (ws.foldl View.reclaim v)) : Integrity (ws.foldl View.reclaim v) := by
  obtain ⟨h, l, group, member⟩ := intact cur used
  obtain ⟨xs, ys, split⟩ := List.append_of_mem member
  have sublist := (behind xs ys (split ▸ group.linked)).trans (behind_sublist split)
  refine (intact.reclaim clean group sublist fun t usedT out w gone master => stays ?_).1
  refine ⟨t, ?_, w, master, .inl ?_⟩
  · rwa [(View.reclaim_fields v ws t).1, if_neg out]
  · rw [(View.reclaim_fields v ws w).1, if_pos gone]

theorem View.reclaim_load (out : cur ∉ ws) (id : Int × Nat) :
    ws.foldl View.reclaim (v.load cur id) = (ws.foldl View.reclaim v).load cur id := by
  ext1
  · funext p
    rw [(View.reclaim_fields _ ws p).1]
    by_cases here : p = cur
    · subst here
      simp [View.load, out]
    · simp only [View.load, Function.update_of_ne here, (View.reclaim_fields v ws p).1]
  · funext p
    rw [(View.reclaim_fields _ ws p).2.1]
    exact (View.reclaim_fields v ws p).2.1.symm
  · funext p
    rw [(View.reclaim_fields _ ws p).2.2]
    exact (View.reclaim_fields v ws p).2.2.symm
  · rw [View.reclaim_threads]
    exact (View.reclaim_threads v ws).symm
  · rw [View.reclaim_init]
    exact (View.reclaim_init v ws).symm

/-- `exec` by a main thread reclaims all other threads of its group. -/
theorem Integrity.exec (intact : Integrity v) (clean : Clean v) (used : v.ident cur ≠ none)
    (main : v.master cur = none) (linked : v.threads.Linked (xs ++ cur :: ys)) (id : Int × Nat) :
    Integrity (ys.foldl View.reclaim (v.load cur id)) := by
  obtain ⟨h, l, group, member⟩ := intact cur used
  obtain ⟨_, n, ends⟩ := (group.members cur).mp member
  obtain ⟨_, head⟩ := ends.unique (.here main)
  subst head
  have same : l = ys := group.linked.unique (Links.seg_append.mp linked).2
  subst same
  have out : h ∉ l := (List.nodup_cons.mp group.linked.nodup).1
  obtain ⟨whole, l', alone, mem⟩ := intact.reclaim clean group (List.Sublist.refl l) (by
    intro t usedT outside w inside master
    -- a thread created by a member is a member
    obtain ⟨_, m, ends⟩ := (group.members w).mp (List.mem_cons_of_mem _ inside)
    have member := (group.members t).mpr ⟨usedT, _, .step master ends⟩
    rcases List.mem_cons.mp member with rfl | member
    · rw [main] at master
      cases master
    · exact outside member)
  have empty : l' = [] := List.eq_nil_iff_forall_not_mem.mpr fun u member =>
    ((mem u).mp member).2 ((mem u).mp member).1
  subst empty
  rw [View.reclaim_load out]
  exact whole.load alone id

theorem View.load_used {id : Int × Nat} (used : v.ident t ≠ none) : (v.load cur id).ident t ≠ none := by
  by_cases here : t = cur
  · simp [View.load, here]
  · simpa [View.load, here] using used

/-- `exec` by a worker thread that is nobody's creator. -/
theorem Integrity.leave {n : Nat} {p : Slot} (intact : Integrity v) (clean : Clean v)
    (used : v.ident cur ≠ none) (worker : v.master cur ≠ none) (ends : Chain.Ends v.master n cur p)
    (stays : ∀ t, v.ident t ≠ none → v.master t ≠ some cur) (id : Int × Nat) :
    Integrity ((v.load cur id).promote cur p) ∧ Clean ((v.load cur id).promote cur p) :=
  ⟨intact.promote clean used worker stays id, (clean.load id).promote (View.load_used used)
    (View.load_used (used_on intact clean used ends.on_last)) ends.last⟩

/-- **One step.** -/
theorem Effect.groups {act : Call} (effect : Effect v cur act v') (used : v.ident cur ≠ none)
    (intact : Integrity v) (clean : Clean v) (stays : ¬Orphans v v') (placed : ¬Strands v v') :
    Integrity v' ∧ Clean v' := by
  cases effect with
  | same => exact ⟨intact, clean⟩
  | fork np id first =>
    have unused := View.firstUnused_ident first
    refine ⟨intact.add clean unused rfl rfl (fun u other => ?_) ?_, clean.fork unused id⟩
    · have ne : some np ≠ some u := fun same => other (Option.some.inj same).symm
      simp [View.fork, ne]
    · simp [View.fork]
  | create np _ first =>
    have unused := View.firstUnused_ident first
    exact ⟨intact.create clean used unused, clean.create used unused⟩
  | embryo np id first =>
    have unused := View.firstUnused_ident first
    obtain ⟨master, parent⟩ := clean.unused np unused
    exact absurd ⟨np, unused, by simp [View.embryo], parent, master⟩ placed
  | reap ws behind => exact ⟨intact.reap clean used behind stays, clean.reclaim ws⟩
  | exit ws behind =>
    exact ⟨(intact.reap clean used behind stays).congr rfl rfl rfl, (clean.reclaim ws).reparent⟩
  | dispose c child =>
    have root : v.master c = none := clean.child c (by rw [child]; simp)
    refine ⟨intact.dispose clean root fun t usedT master => stays ?_, clean.dispose root⟩
    have ne : t ≠ c := by
      rintro rfl
      rw [root] at master
      cases master
    exact ⟨t, by rwa [View.dispose_ident ne], c, master, .inl (Function.update_self ..)⟩
  | exec id xs ys main linked =>
    exact ⟨intact.exec clean used main linked id, (clean.load id).reclaim ys⟩
  | promote id n p worker ends =>
    refine intact.leave clean used worker ends (fun t usedT master => stays ?_) id
    exact ⟨t, View.load_used usedT, cur, master, .inr ⟨Function.update_self .., worker⟩⟩
  | promoteDispose id n p c worker ends child =>
    have cleared : ((v.load cur id).promote cur p).master cur = none := Function.update_self ..
    have masters : ∀ u, u ≠ cur → ((v.load cur id).promote cur p).master u = v.master u :=
      fun u other => Function.update_of_ne other _ _
    have clean₁ : Clean ((v.load cur id).promote cur p) := (clean.load id).promote
      (View.load_used used) (View.load_used (used_on intact clean used ends.on_last)) ends.last
    have root : ((v.load cur id).promote cur p).master c = none :=
      clean₁.child c (by rw [child]; simp)
    -- neither the caller nor the child it disposes of is anybody's creator
    have alone : ∀ t, v.ident t ≠ none → v.master t ≠ some cur := by
      intro t usedT master
      by_cases gone : t = c
      · subst gone
        by_cases self : t = cur
        · subst self
          cases ends with
          | here null => exact worker null
          | step next rest =>
            rw [master] at next
            cases next
            have := (rest.unique (.step master rest)).1
            omega
        · rw [masters t self, master] at root
          cases root
      · refine stays ⟨t, ?_, cur, master, .inr ⟨cleared, worker⟩⟩
        rw [View.dispose_ident gone]
        exact View.load_used usedT
    have intact₁ := (intact.leave clean used worker ends alone id).1
    refine ⟨intact₁.dispose clean₁ root fun t usedT master => stays ?_, clean₁.dispose root⟩
    have other : t ≠ cur := by
      rintro rfl
      rw [cleared] at master
      cases master
    have ne : t ≠ c := by
      rintro rfl
      rw [root] at master
      cases master
    exact ⟨t, by rwa [View.dispose_ident ne], c, (masters t other).symm.trans master,
      .inl (Function.update_self ..)⟩

/-- A call takes no creator away from a thread that stays, and every slot it brings into use
becomes a child or a thread: in particular a `thread_create` that has a slot gets its stack. -/
def KeepsGroups (k : Kernel) (a : Slot × Call) : Prop :=
  ∀ k' ∈ step k a, ¬Orphans k.view k'.view ∧ ¬Strands k.view k'.view

instance (v v' : View) : Decidable (Orphans v v') := by
  unfold Orphans
  infer_instance

instance (v v' : View) : Decidable (Strands v v') := by
  unfold Strands
  infer_instance

instance (k : Kernel) (a : Slot × Call) : Decidable (KeepsGroups k a) := by
  unfold KeepsGroups
  infer_instance

/-- The invariant in every state such calls reach. -/
theorem groups_of_reach {k : Kernel} (reach : calls.Reach KeepsGroups k) :
    Integrity k.view ∧ Clean k.view := by
  refine reach.invariant (?_ : ∀ k, calls.init k → Integrity k.view ∧ Clean k.view) ?_
  · rintro k ⟨free, booted⟩
    obtain ⟨p, id, view⟩ := userinit_view booted
    rw [view]
    refine ⟨fun t used => ⟨t, [], ⟨rfl, ⟨rfl, rfl, trivial⟩, fun u => ?_, by simp⟩, by simp⟩,
      fun _ _ => ⟨rfl, rfl⟩, fun _ _ => rfl⟩
    constructor
    · intro member
      rw [List.mem_singleton.mp member]
      exact ⟨used, 0, .here rfl⟩
    · rintro ⟨_, n, ends⟩
      obtain ⟨_, rfl⟩ := ends.unique (.here rfl)
      simp
  · rintro k ⟨cur, act⟩ k' ⟨intact, clean⟩ keeps stepped
    replace stepped : step k (cur, act) = some k' := stepped
    have used : k.view.ident cur ≠ none := by
      rw [ident_ne_none, step_ready stepped]
      decide
    obtain ⟨stays, placed⟩ := keeps k' stepped
    exact (step_effect (fun _ _ => intact.intact used) stepped).groups used intact clean stays placed

/-- Every live thread belongs to the group of a live main thread: `get_highest_master` finds
it, its list is consistently linked and contains exactly the live threads it is the highest
master of, and they share its pid and page directory. -/
def ThreadGroups (k : Kernel) : Prop :=
  ∀ t, k.state t ≠ .UNUSED → ∃ h l, getHighestMaster k t = .ok h ∧ k.state h ≠ .UNUSED ∧
    k.master h = none ∧ k.threads.Linked (h :: l) ∧ t ∈ h :: l ∧
    k.pid t = k.pid h ∧ k.pgdir t = k.pgdir h ∧
    ∀ u, u ∈ h :: l ↔ k.state u ≠ .UNUSED ∧ getHighestMaster k u = .ok h

end Xv6.Proc
