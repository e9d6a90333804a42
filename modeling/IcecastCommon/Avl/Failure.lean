import IcecastCommon.Avl.Run

/-!
# Calls that fail

A deletion that does not find its key, and an insertion whose `malloc` fails. Both write to the
ranks on their way down. Runs in which allocations may fail.
-/

namespace Avl

open Lib

variable {κ ω : Type}

/-! ## The insertion without memory -/

section Search

variable [RankBalance ω]

/-- The memory after a `malloc` that fails. -/
def refused (m : Memory (avl_node κ ω)) : Memory (avl_node κ ω) :=
  { m with grants := fun n => m.grants (n + 1) }

theorem avl_node_new_none {m : Memory (avl_node κ ω)} (hm : m.grants 0 = none) (key : κ) (p : Ptr) :
    avl_node_new m key p = (none, refused m) := by
  simp only [avl_node_new, Memory.malloc, hm, refused]

variable [HasNull κ]

/-- The search through `x` below the path `c` ends without a node, with the ranks on the
way raised. -/
def FallsOff (compare_fun : κ → κ → Int) (key : κ) (root : Nat) (x : BinaryTree (Item κ ω))
    (c : List (Frame (Item κ ω))) (result : C (Memory (avl_node κ ω) × Option (Ptr × Ptr × Ptr))) :
    Prop :=
  ∃ m, result = .ok (m, none) ∧
    Holds m root ((route (fun i => compare_fun key i.key) x []).map (Frame.map bump) ++ c) .nil

theorem insert_next_fails (compare_fun : κ → κ → Int) (key : κ) (root : Nat)
    (x : BinaryTree (Item κ ω)) (f : Frame (Item κ ω)) (c : List (Frame (Item κ ω)))
    {m : Memory (avl_node κ ω)} (t s : Ptr) {fuel : Nat} (h : Holds m root (f :: c) x)
    (hm : m.grants 0 = none)
    (ih : ∀ (t s : Ptr) (i : Item κ ω) (l r : BinaryTree (Item κ ω)), x = .node i l r →
      FallsOff compare_fun key root x (f :: c)
        (insert_search compare_fun key fuel m t s (some i.addr))) :
    FallsOff compare_fun key root x (f :: c)
      (insert_next compare_fun key fuel f.side m t s (some f.value.addr) (ptr x)) := by
  cases x with
  | nil =>
    refine ⟨refused m, ?_, h.congr fun _ _ => rfl⟩
    simp only [insert_next, ptr, avl_node_new_none hm, pure_eq_ok]
  | node j y z =>
    have hbal : get_balance m (some j.addr) = .ok j.balance :=
      get_balance_cell (d := .left) h.get_node
    simp only [insert_next, ptr, hbal, ok_bind]
    split_ifs
    · exact ih _ _ j y z rfl
    · exact ih _ _ j y z rfl

theorem insert_search_fails (compare_fun : κ → κ → Int) (key : κ) (root : Nat)
    (x : BinaryTree (Item κ ω)) :
    ∀ (c : List (Frame (Item κ ω))) (m : Memory (avl_node κ ω)) (t s : Ptr) (fuel : Nat)
      (i : Item κ ω) (l r : BinaryTree (Item κ ω)), x = .node i l r → Holds m root c x →
      m.grants 0 = none →
      x.height ≤ fuel →
      FallsOff compare_fun key root x c
        (insert_search compare_fun key fuel m t s (some i.addr)) := by
  induction x with
  | nil => intro _ _ _ _ _ _ _ _ h; cases h
  | node i l r ihl ihr =>
    rintro c m t s fuel _ _ _ ⟨⟩ h hm hfuel
    rw [BinaryTree.height] at hfuel
    obtain ⟨fuel, rfl⟩ : ∃ n, fuel = n + 1 := ⟨fuel - 1, by omega⟩
    simp only [FallsOff, insert_search_succ, Memory.load_eq h.get_node, ok_bind, cell]
    rw [route]
    split_ifs with hcmp
    · obtain ⟨m1, hm1, h1, hg1⟩ := h.set_rank (i.rank + 1)
      rw [Item.rank] at hm1
      rw [hm1, ok_bind, route_append, List.map_append, List.append_assoc]
      have hhole : Holds m1 root (⟨i.setRank (i.rank + 1), .left, r⟩ :: c) l := holds_cons.mpr h1
      refine insert_next_fails compare_fun key root l ⟨i.setRank (i.rank + 1), .left, r⟩ c t s hhole
        (hg1 ▸ hm) fun t s j y z hl => ?_
      exact ihl _ m1 t s fuel j y z hl hhole (hg1 ▸ hm) (by omega)
    · rw [route_append, List.map_append, List.append_assoc]
      have hhole : Holds m root (⟨i, .right, l⟩ :: c) r := holds_cons.mpr h
      refine insert_next_fails compare_fun key root r ⟨i, .right, l⟩ c t s hhole hm
        fun t s j y z hr => ?_
      exact ihr _ m t s fuel j y z hr hhole hm (by omega)

/-- **An insertion that gets no memory** returns -1 and leaves the ranks on its way raised. -/
theorem avl_insert_fails {ob : avl_tree κ ω} {root : Nat} {t : BinaryTree (Item κ ω)} (key : κ)
    (hroot : ob.root = some root) (h : Holds ob.mem root [] t) (hm : ob.mem.grants 0 = none) :
    ∃ m', avl_insert ob key = .ok (-1, { ob with mem := m' }) ∧
      Holds m' root []
        (plug ((route (fun i => ob.compare_fun key i.key) t []).map (Frame.map bump)) .nil) := by
  obtain ⟨n, hn, hright, -, -⟩ := h.load_root
  have hbound := h.numNodes_lt_size
  rw [plug_nil] at hright hbound
  cases t with
  | nil =>
    refine ⟨refused ob.mem, ?_, h.congr fun _ _ => rfl⟩
    simp only [avl_insert, hroot, hn, ok_bind, hright, ptr, avl_node_new_none hm, pure_eq_ok]
  | node i l r =>
    have hheight := BinaryTree.height_le_numNodes (.node i l r)
    obtain ⟨m', hm', h'⟩ :=
      insert_search_fails ob.compare_fun key root (.node i l r) [] ob.mem (some root)
        (some i.addr) (ob.mem.size + 1) i l r rfl h hm (by omega)
    rw [List.append_nil] at h'
    refine ⟨m', ?_, holds_plug.mp h'⟩
    simp only [avl_insert, hroot, hn, ok_bind, hright, ptr, hm', pure_eq_ok]

end Search

/-! ## The way down -/

/-- The place of `key` is to the right of every node on the way. -/
def OnlyRight (compare_fun : κ → κ → Int) (key : κ) : BinaryTree (Item κ ω) → Prop
  | .nil => True
  | .node i _ r => 1 ≤ compare_fun key i.key ∧ OnlyRight compare_fun key r

theorem onlyRight_iff (compare_fun : κ → κ → Int) (key : κ) (t : BinaryTree (Item κ ω)) :
    OnlyRight compare_fun key t ↔ ∀ f ∈ route (fun i => compare_fun key i.key) t [],
      f.side = .right := by
  induction t with
  | nil => simp [OnlyRight, route]
  | node i l r _ ihr =>
    rw [OnlyRight, ihr, route]
    split_ifs with h
    · rw [route_append _ l [_]]
      simp only [List.mem_append, List.mem_singleton]
      refine iff_of_false (fun hle => by omega) fun hall => ?_
      simpa using hall ⟨i, .left, r⟩ (Or.inr rfl)
    · rw [route_append _ r [_]]
      simp only [List.mem_append, List.mem_singleton, or_imp, forall_and, forall_eq, and_true]
      exact and_iff_right (by omega)

theorem OnlyRight.bumped [RankBalance ω] {compare_fun : κ → κ → Int} {key : κ}
    {t : BinaryTree (Item κ ω)} (h : OnlyRight compare_fun key t) :
    (route (fun i => compare_fun key i.key) t []).map (Frame.map bump) =
      route (fun i => compare_fun key i.key) t [] := by
  refine (List.map_congr_left fun f hf => ?_).trans (List.map_id _)
  rw [Frame.map, (onlyRight_iff compare_fun key t).mp h f hf]
  cases f with
  | mk value side other =>
    obtain rfl : side = .right := (onlyRight_iff compare_fun key t).mp h _ hf
    rfl

/-! ## Runs in which allocations may fail -/

section Runs

variable [RankBalance ω]

/-- The tree in a memory that answers the next `malloc` with `reply`. -/
def answered (tree : avl_tree κ ω) (reply : Option Nat) : avl_tree κ ω :=
  { tree with mem := { tree.mem with grants := fun _ => reply } }

variable [HasNull κ]

/-- One call, and the answer to the `malloc` that it makes, if it makes one. -/
def attempt (tree : avl_tree κ ω) (c : Option Nat × Call κ) : C (avl_tree κ ω) :=
  call (answered tree c.1) c.2

def attempts (tree : avl_tree κ ω) (calls : List (Option Nat × Call κ)) : C (avl_tree κ ω) :=
  calls.foldlM attempt tree

/-- The nodes that a call makes. -/
def granted : Option Nat × Call κ → Nat
  | (some _, .insert _) => 1
  | _ => 0

theorem answered_stands {tree : avl_tree κ ω} {t : BinaryTree (Item κ ω)} (h : Stands tree t)
    (reply : Option Nat) : Stands (answered tree reply) t := by
  obtain ⟨root, hroot, hheld⟩ := h.held
  exact ⟨⟨root, hroot, hheld.congr fun _ _ => rfl⟩, h.balanced, h.length⟩

theorem new_stands {compare_fun : κ → κ → Int} {m : Memory (avl_node κ ω)} {tree : avl_tree κ ω}
    (hnew : avl_tree_new compare_fun m = some tree) :
    Stands tree .nil ∧ tree.compare_fun = compare_fun := by
  unfold avl_tree_new at hnew
  rcases hnode : avl_node_new m HasNull.NULL none with ⟨_ | a, m'⟩
  · simp [hnode] at hnew
  · simp only [hnode, Option.some.injEq] at hnew
    obtain ⟨-, hget, -⟩ := Memory.malloc_some hnode
    subst hnew
    exact ⟨⟨⟨a, rfl, ⟨_, hget⟩, trivial, by simp⟩, trivial, rfl⟩, rfl⟩

variable [LawfulRankBalance ω]

theorem insert_refused {tree : avl_tree κ ω} {t : BinaryTree (Item κ ω)}
    (h : Stands tree t) (key : κ) :
    ∃ tree' t', avl_insert (answered tree none) key = .ok (-1, tree') ∧ Stands tree' t' ∧
      tree'.compare_fun = tree.compare_fun ∧ keys t' = keys t ∧
      (Spaced t → weight t + 1 < 2 ^ 30 → Spaced t' ∧ weight t' ≤ weight t + 1) ∧
      (OnlyRight tree.compare_fun key t → t' = t) := by
  obtain ⟨root, hroot, hheld⟩ := (answered_stands h none).held
  obtain ⟨m', hins, hheld'⟩ := avl_insert_fails key hroot hheld rfl
  refine ⟨{ answered tree none with mem := m' }, _, hins, ⟨⟨root, hroot, hheld'⟩, ?_, ?_⟩, rfl, ?_,
    fun hs hsize => spaced_bumped _ key hs hsize trivial (by simp [weight]), fun hright => ?_⟩
  · exact (everywhere_plug _ _).mpr ⟨trivial, balanced_bumped _ key h.balanced⟩
  · rw [numNodes_plug_map bump _ .nil .nil rfl, plug_route, plug_nil]
    exact h.length
  · rw [keys_plug_map bump bump_key, plug_route, plug_nil]
  · exact (congrArg (plug · .nil) hright.bumped).trans (plug_route _ t [])

theorem insert_granted {tree : avl_tree κ ω} {t : BinaryTree (Item κ ω)}
    (hcmp : TotalPreorder tree.compare_fun) (h : Stands tree t)
    (ht : Sorted tree.compare_fun (keys t)) (key : κ) (wish : Nat) :
    ∃ tree' t', avl_insert (answered tree (some wish)) key = .ok (0, tree') ∧ Stands tree' t' ∧
      tree'.compare_fun = tree.compare_fun ∧ Sorted tree.compare_fun (keys t') ∧
      keys t' = (keys t).filter (fun x => tree.compare_fun x key < 0) ++ [key] ++
        (keys t).filter (fun x => 0 ≤ tree.compare_fun x key) := by
  obtain ⟨tree', t', hins, hdone, hkeys, hsorted⟩ :=
    insert_sequence (show TotalPreorder (answered tree (some wish)).compare_fun from hcmp) key
      ((answered_stands h _).stores fun _ => rfl) ht
  exact ⟨tree', t', hins, hdone.stores.stands, hdone.compare_fun, hsorted, hkeys⟩

theorem delete_keys {tree : avl_tree κ ω} {t : BinaryTree (Item κ ω)}
    (hcmp : TotalPreorder tree.compare_fun) (h : Stands tree t)
    (ht : Sorted tree.compare_fun (keys t)) (key : κ) (free_key_fun : Option (κ → Int)) :
    ∃ ret tree' freed t', avl_delete tree key free_key_fun = .ok (ret, tree', freed) ∧
      Stands tree' t' ∧
      tree'.compare_fun = tree.compare_fun ∧
      ((∃ A k B, keys t = A ++ k :: B ∧ keys t' = A ++ B ∧ tree.compare_fun key k = 0) ∨
        (∀ k ∈ keys t, tree.compare_fun key k ≠ 0) ∧ keys t' = keys t) := by
  rcases hs : seek (fun i : Item κ ω => tree.compare_fun key i.key) t [] with ⟨p, u⟩
  cases u with
  | nil =>
    obtain ⟨m', hdel, -, hst, hlab⟩ := delete_absent_stands free_key_fun h hs
    refine ⟨_, _, _, _, hdel, hst, rfl, .inr ⟨absent_of_seek hcmp ht hs, ?_⟩⟩
    rw [keys_of_labels, hlab, ← keys_of_labels]
  | node i l r =>
    obtain ⟨tree', t', hdel, -, hst, hfun, ⟨A, B, hA, hB⟩, hfound, -⟩ :=
      delete_present_stands free_key_fun h hs
    exact ⟨_, tree', _, t', hdel, hst, hfun, .inl ⟨A, i.key, B, hA, hB, hfound⟩⟩

theorem attempt_stands {tree : avl_tree κ ω} {t : BinaryTree (Item κ ω)} (h : Stands tree t)
    (c : Option Nat × Call κ) :
    ∃ tree' t', attempt tree c = .ok tree' ∧ Stands tree' t' ∧
      tree'.compare_fun = tree.compare_fun ∧
      t'.numNodes ≤ t.numNodes + granted c := by
  obtain ⟨reply, c⟩ := c
  have ha := answered_stands h reply
  cases c with
  | insert key =>
    cases reply with
    | none =>
      obtain ⟨tree', t', hins, hst, hfun, hkeys, -⟩ := insert_refused h key
      refine ⟨tree', t', ?_, hst, hfun, ?_⟩
      · simp only [attempt, call, hins, ok_bind, pure_eq_ok]
      · rw [← keys_length, hkeys, keys_length]
        exact Nat.le_add_right _ _
    | some wish =>
      obtain ⟨tree', t', hins, hdone⟩ := avl_insert_spec key (ha.stores fun _ => rfl)
      obtain ⟨a, hlab⟩ := hdone.inserted.labels
      refine ⟨tree', t', ?_, hdone.stores.stands, hdone.compare_fun, (numNodes_of_labels hlab).le⟩
      simp only [attempt, call, hins, ok_bind, pure_eq_ok]
  | delete key free_key_fun =>
    rcases hs : seek (fun i : Item κ ω => (answered tree reply).compare_fun key i.key) t []
      with ⟨p, u⟩
    cases u with
    | nil =>
      obtain ⟨m', hdel, -, hst, hlab⟩ := delete_absent_stands free_key_fun ha hs
      refine ⟨_, _, ?_, hst, rfl, ?_⟩
      · simp only [attempt, call, hdel, ok_bind, pure_eq_ok]
      · rw [← labels_length, hlab, labels_length]
        exact Nat.le_add_right _ _
    | node i l r =>
      obtain ⟨tree', t', hdel, -, hst, hfun, ⟨A, B, hA, hB⟩, -⟩ :=
        delete_present_stands free_key_fun ha hs
      refine ⟨tree', t', ?_, hst, hfun, ?_⟩
      · simp only [attempt, call, hdel, ok_bind, pure_eq_ok]
      · rw [← keys_length, ← keys_length, hA, hB]
        simp
        omega

theorem attempts_length_le {tree tree' : avl_tree κ ω} {t : BinaryTree (Item κ ω)}
    (h : Stands tree t) (calls : List (Option Nat × Call κ))
    (hrun : attempts tree calls = .ok tree') {S : List κ} (hS : Reads tree' S) :
    S.length ≤ t.numNodes + (calls.map granted).sum := by
  induction calls generalizing tree t with
  | nil =>
    obtain rfl : tree = tree' := Except.ok.inj hrun
    obtain ⟨root, hroot, hheld⟩ := h.held
    rw [hS.unique hroot hheld, keys_length]
    exact Nat.le_add_right _ _
  | cons c calls ih =>
    obtain ⟨tree1, t1, hcall, hst1, -, hle⟩ := attempt_stands h c
    rw [attempts, List.foldlM_cons, hcall, ok_bind] at hrun
    have := ih hst1 hrun
    rw [List.map_cons, List.sum_cons]
    omega

/-- No call of a run goes wrong, and every tree that it reaches is held by its memory. -/
theorem attempts_stands {compare_fun : κ → κ → Int} {m : Memory (avl_node κ ω)}
    {tree : avl_tree κ ω} (hnew : avl_tree_new compare_fun m = some tree)
    (calls : List (Option Nat × Call κ)) :
    ∃ tree', attempts tree calls = .ok tree' ∧
      ∃ t : BinaryTree (Item κ ω), Stands tree' t ∧ tree'.compare_fun = compare_fun := by
  obtain ⟨hst, hfun⟩ := new_stands hnew
  refine run_invariant (fun tree1 c h => ?_) ⟨.nil, hst, hfun⟩ calls
  obtain ⟨t1, h1, hfun1⟩ := h
  obtain ⟨tree2, t2, hcall, h2, hfun2, -⟩ := attempt_stands h1 c
  exact ⟨tree2, hcall, t2, h2, hfun2.trans hfun1⟩

end Runs

/-! ## When nothing has changed -/

/-- The search for `key` leaves the tree at a right child that is not there. -/
def EndsRight (compare_fun : κ → κ → Int) (key : κ) : BinaryTree (Item κ ω) → Prop
  | .nil => False
  | .node i l r =>
    if compare_fun key i.key < 0 then EndsRight compare_fun key l
    else r = .nil ∨ EndsRight compare_fun key r

theorem endsRight_iff (compare_fun : κ → κ → Int) (key : κ) (t : BinaryTree (Item κ ω))
    (h : (seek (fun i => compare_fun key i.key) t []).2 = .nil) :
    EndsRight compare_fun key t ↔
      ∃ f, (seek (fun i => compare_fun key i.key) t []).1.head? = some f ∧ f.side = .right := by
  induction t with
  | nil => simp [EndsRight, seek]
  | node i l r ihl ihr =>
    rw [seek] at h ⊢
    rw [EndsRight]
    split_ifs at h ⊢ with h1 h2
    · rw [seek_append] at h ⊢
      rw [ihl h]
      cases l with
      | nil => simp [seek]
      | node j x y =>
        have hne :=
          (seek_node_ne (fun i => compare_fun key i.key) j x y).resolve_right (not_not.mpr h)
        rw [List.head?_append_of_ne_nil _ hne]
    · rw [seek_append] at h ⊢
      rw [ihr h]
      cases r with
      | nil => simp [seek]
      | node j x y =>
        have hne :=
          (seek_node_ne (fun i => compare_fun key i.key) j x y).resolve_right (not_not.mpr h)
        rw [List.head?_append_of_ne_nil _ hne]
        simp

/-! ## Words of 32 bits -/

section Words

theorem setRank_ne (i : Item κ (BitVec 32)) : i.setRank (i.rank + 1) ≠ i := by
  intro h
  exact set_rank_succ_ne i.word (congrArg Item.word h)

theorem bump_sink (d : Side) (i : Item κ (BitVec 32)) : bump d (sink d i) = i := by
  cases d
  · obtain ⟨a, k, w⟩ := i
    exact congrArg (Item.mk a k) (set_rank_restore w)
  · rfl

theorem miss_eq_iff (d : Side) (i : Item κ (BitVec 32)) : miss d i = i ↔ d = .left := by
  cases d
  · exact iff_of_true (bump_sink .left i) rfl
  · exact iff_of_false (setRank_ne i) (by simp)

theorem bump_eq_iff (d : Side) (i : Item κ (BitVec 32)) : bump d i = i ↔ d = .right := by
  cases d
  · exact iff_of_false (setRank_ne i) (by simp)
  · exact iff_of_true rfl rfl

theorem lost_eq_iff (p : List (Frame (Item κ (BitVec 32)))) :
    plug (lost p []) .nil = plug p .nil ↔ ¬ ∃ f, p.head? = some f ∧ f.side = .right := by
  cases p with
  | nil => simp [lost]
  | cons f p =>
    have hrest : (p.map (Frame.map sink) ++ []).map (Frame.map bump) = p := by
      rw [List.append_nil, List.map_map]
      refine (List.map_congr_left fun g _ => ?_).trans (List.map_id p)
      simp [Frame.map, bump_sink]
    rw [lost, hrest, List.head?_cons]
    have hsingle : plug (f.map miss :: p) .nil = plug (f :: p) .nil ↔
        miss f.side f.value = f.value := by
      constructor
      · intro h
        rw [plug_cons, plug_cons] at h
        exact (plug_map_inj miss [f] (plug_inj p h)).2 f (by simp)
      · intro h
        rw [plug_cons, plug_cons, show f.map miss = f by simp [Frame.map, h]]
    rw [hsingle, miss_eq_iff]
    cases hs : f.side <;> simp [hs]

theorem bumped_eq_iff (c : List (Frame (Item κ (BitVec 32)))) :
    plug (c.map (Frame.map bump)) .nil = plug c .nil ↔ ∀ f ∈ c, f.side = .right := by
  constructor
  · intro h f hf
    exact (bump_eq_iff _ _).mp ((plug_map_inj bump c h).2 f hf)
  · intro h
    refine congrArg (plug · .nil) ((List.map_congr_left fun f hf => ?_).trans (List.map_id c))
    simp [Frame.map, (bump_eq_iff _ _).mpr (h f hf)]

variable [HasNull κ] {compare_fun : κ → κ → Int} {m : Memory (avl_node κ (BitVec 32))}
  {tree : avl_tree κ (BitVec 32)}

/-- **A deletion that does not find its key** returns -1 and frees nothing. The tree is as it was
exactly when the search does not end at a missing right child. -/
theorem delete_absent_iff (hnew : avl_tree_new compare_fun m = some tree)
    (calls : List (Option Nat × Call κ)) :
    ∃ tree' root t, attempts tree calls = .ok tree' ∧ tree'.root = some root ∧
      Holds tree'.mem root [] t ∧
      ∀ key free_key_fun, (∀ k ∈ keys t, compare_fun key k ≠ 0) →
        ∃ m', avl_delete tree' key free_key_fun = .ok (-1, { tree' with mem := m' }, []) ∧
          (Holds m' root [] t ↔ ¬ EndsRight compare_fun key t) := by
  obtain ⟨tree', hrun, t, hst, rfl⟩ := attempts_stands hnew calls
  obtain ⟨root, hroot, hheld⟩ := hst.held
  refine ⟨tree', root, t, hrun, hroot, hheld, fun key free_key_fun habsent => ?_⟩
  obtain ⟨hplug, -, hfound, -⟩ :=
    seek_spec (fun i : Item κ (BitVec 32) => tree'.compare_fun key i.key) t []
  have hnil : (seek (fun i : Item κ (BitVec 32) => tree'.compare_fun key i.key) t []).2 = .nil := by
    cases hu : (seek (fun i : Item κ (BitVec 32) => tree'.compare_fun key i.key) t []).2 with
    | nil => rfl
    | node i l r =>
      refine absurd (hfound i l r hu) (habsent i.key ?_)
      rw [hu, plug_nil] at hplug
      rw [← hplug, keys_plug]
      simp
  rw [hnil, plug_nil] at hplug
  obtain ⟨m', hdel, -, hst', -⟩ := delete_absent_stands free_key_fun hst (Prod.ext rfl hnil)
  obtain ⟨root', hroot', hheld'⟩ := hst'.held
  obtain rfl : root = root' := Option.some.inj (hroot.symm.trans hroot')
  refine ⟨m', hdel, ?_⟩
  rw [endsRight_iff _ key t hnil, ← lost_eq_iff, hplug]
  constructor
  · exact fun h => hheld'.unique h
  · exact fun h => h ▸ hheld'

theorem delete_absent_iff_sample : ∃ tree' root t,
    attempts sample [(some 2, .insert 5), (none, .insert 3)] = .ok tree' ∧ tree'.root = some root ∧
      Holds tree'.mem root [] t ∧
      ∀ key free_key_fun, (∀ k ∈ keys t, byAddress key k ≠ 0) →
        ∃ m', avl_delete tree' key free_key_fun = .ok (-1, { tree' with mem := m' }, []) ∧
          (Holds m' root [] t ↔ ¬ EndsRight byAddress key t) :=
  delete_absent_iff sample_new _

/-- The node that `avl_insert` makes for the key 5 in the cell 2, with this rank. -/
def five (rank : Int) : BinaryTree (Item Nat (BitVec 32)) :=
  .node ⟨2, 5, AVL_SET_RANK 1#32 rank⟩ .nil .nil

/-- Deleting 7 from a tree that holds 5 raises the rank of 5. -/
theorem delete_absent_raises : ∃ tree', attempts sample [(some 2, .insert 5)] = .ok tree' ∧
    tree'.root = some 1 ∧ Holds tree'.mem 1 [] (five 1) ∧ (∀ k ∈ keys (five 1), byAddress 7 k ≠ 0) ∧
    ¬ ∃ m', avl_delete tree' 7 none = .ok (-1, { tree' with mem := m' }, []) ∧
      Holds m' 1 [] (five 1) := by
  refine ⟨_, rfl, rfl, ⟨⟨_, rfl⟩, ⟨rfl, trivial, trivial⟩, by decide⟩, by decide, ?_⟩
  rintro ⟨m', hdel, h⟩
  obtain rfl : _ = m' := congrArg (fun r => r.2.1.mem) (Except.ok.inj hdel)
  exact absurd (congrArg (Option.map avl_node.rank_and_balance) h.owns.1) (by decide)

/-- **An insertion that gets no memory** returns -1. The tree is as it was exactly when the place of
the key is to the right of every node on the way. -/
theorem insert_fails_iff (hnew : avl_tree_new compare_fun m = some tree)
    (calls : List (Option Nat × Call κ)) :
    ∃ tree' root t, attempts tree calls = .ok tree' ∧ tree'.root = some root ∧
      Holds tree'.mem root [] t ∧
      ∀ key, ∃ m', avl_insert (answered tree' none) key = .ok (-1, { tree' with mem := m' }) ∧
        (Holds m' root [] t ↔ OnlyRight compare_fun key t) := by
  obtain ⟨tree', hrun, t, hst, rfl⟩ := attempts_stands hnew calls
  obtain ⟨root, hroot, hheld⟩ := hst.held
  refine ⟨tree', root, t, hrun, hroot, hheld, fun key => ?_⟩
  obtain ⟨m', hins, hheld'⟩ :=
    avl_insert_fails key (show (answered tree' none).root = some root from hroot)
      (hheld.congr fun _ _ => rfl) rfl
  have hplug := plug_route (fun i : Item κ (BitVec 32) => tree'.compare_fun key i.key) t []
  rw [plug_nil] at hplug
  refine ⟨m', hins, ?_⟩
  rw [onlyRight_iff, ← bumped_eq_iff, hplug]
  constructor
  · exact fun h => hheld'.unique h
  · exact fun h => h ▸ hheld'

theorem insert_fails_iff_sample : ∃ tree' root t,
    attempts sample [(some 2, .insert 5), (some 3, .insert 7), (some 4, .insert 9),
      (some 5, .insert 5),
        (none, .insert 3), (none, .delete 7 none)] = .ok tree' ∧
      tree'.root = some root ∧ Holds tree'.mem root [] t ∧
      ∀ key, ∃ m', avl_insert (answered tree' none) key = .ok (-1, { tree' with mem := m' }) ∧
        (Holds m' root [] t ↔ OnlyRight byAddress key t) :=
  insert_fails_iff sample_new _

/-- Inserting 3 without memory into a tree that holds 5 raises the rank of 5. -/
theorem insert_fails_raises : ∃ tree', attempts sample [(some 2, .insert 5)] = .ok tree' ∧
    tree'.root = some 1 ∧ Holds tree'.mem 1 [] (five 1) ∧
    ¬ ∃ m', avl_insert (answered tree' none) 3 = .ok (-1, { tree' with mem := m' }) ∧
      Holds m' 1 [] (five 1) := by
  refine ⟨_, rfl, rfl, ⟨⟨_, rfl⟩, ⟨rfl, trivial, trivial⟩, by decide⟩, ?_⟩
  rintro ⟨m', hins, h⟩
  obtain rfl : _ = m' := congrArg (fun r => r.2.mem) (Except.ok.inj hins)
  exact absurd (congrArg (Option.map avl_node.rank_and_balance) h.owns.1) (by decide)

end Words

end Avl
